import ChipEight.Instruction.Mnemonic

/-! Journal entries. An event carries the values that its line shows; the line
is its level and its message. -/

namespace ChipEight

inductive Level where
  | trace
  | debug
  | info
  | error
  deriving DecidableEq, Repr

def Level.label : Level → String
  | trace => "TRACE"
  | debug => "DEBUG"
  | info => "INFO"
  | error => "ERROR"

/-- A word that is about to be executed, and the registers as they are before. -/
structure Snapshot where
  word : Word
  instruction : Instruction
  v : Vector UInt8 16
  i : UInt16
  pc : UInt16
  deriving DecidableEq

namespace Snapshot

open Numeral

/-- The width of the column for mnemonics. -/
def mnemonicWidth : Nat := 16

/-- A text with blanks behind it, up to `width` characters. -/
def column (width : Nat) (text : String) : String :=
  text ++ String.ofList (List.replicate (width - text.length) ' ')

def registers (v : Vector UInt8 16) : String :=
  "v[" ++ ", ".intercalate (v.toList.map fun byte => hex 2 byte.toNat) ++ "]"

/-- All columns have a fixed place; the numbers are in base sixteen. -/
def line (s : Snapshot) : String :=
  hex 4 s.word.toNat ++ " " ++ column mnemonicWidth s.instruction.mnemonic ++ " " ++
    registers s.v ++ " i" ++ hex 4 s.i.toNat ++ " pc" ++ hex 4 s.pc.toNat

end Snapshot

inductive Event where
  /-- A program of so many bytes is in memory. -/
  | loaded (size : Nat)
  | reset
  | beep
  | executing (snapshot : Snapshot)
  /-- A program file was read and fits. -/
  | opened (name : String) (size : Nat)
  /-- The step with this number beeped. -/
  | beepAt (cycle : Nat)
  /-- The step behind so many, fetched at `pc`, failed. -/
  | stopped (cycles : Nat) (pc : UInt16)
  | finished (cycles : Nat)
  deriving DecidableEq

namespace Event

open Numeral

def level : Event → Level
  | loaded _ | reset => .debug
  | beep | opened _ _ | beepAt _ | finished _ => .info
  | executing _ => .trace
  | stopped _ _ => .error

def message : Event → String
  | loaded size => "loaded " ++ decimal size ++ " byte program at " ++ marked 3 0x200
  | reset => "reset cpu state"
  | beep => "beep"
  | executing snapshot => snapshot.line
  | opened name size => "loaded " ++ name ++ " (" ++ decimal size ++ " bytes)"
  | beepAt cycle => "beep at cycle " ++ decimal cycle
  | stopped cycles pc =>
    "stopped after " ++ decimal cycles ++ " cycles at pc " ++ marked 3 pc.toNat
  | finished cycles => "finished " ++ decimal cycles ++ " cycles"

def line (e : Event) : String := e.level.label ++ " " ++ e.message

end Event

end ChipEight
