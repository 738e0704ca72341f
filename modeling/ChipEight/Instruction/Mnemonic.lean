import ChipEight.Instruction

/-! The customary assembler notation. Addresses have three digits or more,
immediates two, and the height of a sprite is decimal. -/

namespace ChipEight

open Numeral

/-- The name of a register. -/
def Register.label (x : Nat) : String := "V" ++ hex 1 x

namespace Instruction

open Register (label)

/-- A mnemonic with its destination and its source. -/
def pair (name destination source : String) : String :=
  name ++ " " ++ destination ++ ", " ++ source

def mnemonic : Instruction → String
  | clear => "CLS"
  | ret => "RET"
  | jump target => "JP " ++ marked 3 target.toNat
  | call target => "CALL " ++ marked 3 target.toNat
  | skipEqual x value => pair "SE" (label x) (marked 2 value.toNat)
  | skipUnequal x value => pair "SNE" (label x) (marked 2 value.toNat)
  | set x value => pair "LD" (label x) (marked 2 value.toNat)
  | add x value => pair "ADD" (label x) (marked 2 value.toNat)
  | copy x y => pair "LD" (label x) (label y)
  | skipDifferent x y => pair "SNE" (label x) (label y)
  | setIndex target => pair "LD" "I" (marked 3 target.toNat)
  | random x mask => pair "RND" (label x) (marked 2 mask.toNat)
  | draw x y height => pair "DRW" (label x) (label y) ++ ", " ++ decimal height.toNat
  | skipPressed x => "SKP " ++ label x
  | skipReleased x => "SKNP " ++ label x
  | readDelay x => pair "LD" (label x) "DT"
  | setDelay x => pair "LD" "DT" (label x)
  | addIndex x => pair "ADD" "I" (label x)

end Instruction

/-- A word's line in a listing: its mnemonic, or the fault that it has none. -/
def Word.listing (w : Word) : String :=
  match Instruction.decode w with
  | .ok instruction => instruction.mnemonic
  | .error fault => fault.message

end ChipEight
