import ChipEight.Numeral
import ChipEight.Word

/-! What can go wrong in the machine, and how it is reported. A fault carries
the values that its message shows, so the two determine each other. -/

namespace ChipEight

inductive Fault where
  | unknownWord (word : Word)
  /-- The first address of a read that memory does not have. -/
  | addressOutOfRange (address : Nat)
  | programTooLarge (size limit : Nat)
  | stackFull
  | stackEmpty
  | pixelOffScreen (x y : Nat)
  | noSuchKey (key : UInt8)
  | indexOverflow
  deriving DecidableEq, Repr

/-- Answers that may be errors can be compared, so that runs can be evaluated. -/
def decideAnswers {ε α : Type} [DecidableEq ε] [DecidableEq α] : DecidableEq (Except ε α)
  | .ok a, .ok b => decidable_of_iff (a = b) ⟨congrArg _, Except.ok.inj⟩
  | .error f, .error g => decidable_of_iff (f = g) ⟨congrArg _, Except.error.inj⟩
  | .ok _, .error _ => isFalse nofun
  | .error _, .ok _ => isFalse nofun

instance decidableEqAnswer {α : Type} [DecidableEq α] : DecidableEq (Except Fault α) :=
  decideAnswers

namespace Fault

open Numeral

def message : Fault → String
  | unknownWord word => "unrecognized opcode " ++ marked 4 word.toNat
  | addressOutOfRange address => "memory access out of bounds at address " ++ marked 4 address
  | programTooLarge size limit =>
    "program is too large (" ++ decimal size ++ " bytes), max size is " ++ decimal limit ++ " bytes"
  | stackFull => "stack overflow: call nested deeper than the stack allows"
  | stackEmpty => "stack underflow: return with an empty call stack"
  | pixelOffScreen x y =>
    "pixel (" ++ decimal x ++ ", " ++ decimal y ++ ") is outside the display"
  | noSuchKey key => "key " ++ marked 2 key.toNat ++ " is not on the keypad"
  | indexOverflow => "index register overflowed 16 bits"

end Fault

end ChipEight
