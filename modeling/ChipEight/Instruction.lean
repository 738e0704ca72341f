import ChipEight.Fault

/-! The instruction set. `decode` gives each word its instruction; a word of any
other pattern is a fault, never an instruction without effect. The comment on a
constructor is its pattern, with operands as letters. -/

namespace ChipEight

/-- Registers are operands by their number. -/
inductive Instruction where
  /-- Word 00E0. -/
  | clear
  /-- Word 00EE. -/
  | ret
  /-- Word 1nnn. -/
  | jump (target : UInt16)
  /-- Word 2nnn. -/
  | call (target : UInt16)
  /-- Word 3xkk. -/
  | skipEqual (x : Nat) (value : UInt8)
  /-- Word 4xkk. -/
  | skipUnequal (x : Nat) (value : UInt8)
  /-- Word 6xkk. -/
  | set (x : Nat) (value : UInt8)
  /-- Word 7xkk. -/
  | add (x : Nat) (value : UInt8)
  /-- Word 8xy0. -/
  | copy (x y : Nat)
  /-- Word 9xy0. -/
  | skipDifferent (x y : Nat)
  /-- Word Annn. -/
  | setIndex (target : UInt16)
  /-- Word Cxkk. -/
  | random (x : Nat) (mask : UInt8)
  /-- Word Dxyn. -/
  | draw (x y : Nat) (height : UInt8)
  /-- Word Ex9E. -/
  | skipPressed (x : Nat)
  /-- Word ExA1. -/
  | skipReleased (x : Nat)
  /-- Word Fx07. -/
  | readDelay (x : Nat)
  /-- Word Fx15. -/
  | setDelay (x : Nat)
  /-- Word Fx1E. -/
  | addIndex (x : Nat)
  deriving DecidableEq, Repr

namespace Instruction

def decode (w : Word) : Except Fault Instruction :=
  match w.nibble 3, w.nibble 2, w.nibble 1, w.nibble 0 with
  | 0x0, 0x0, 0xE, 0x0 => .ok .clear
  | 0x0, 0x0, 0xE, 0xE => .ok .ret
  | 0x1, _, _, _ => .ok (.jump w.target)
  | 0x2, _, _, _ => .ok (.call w.target)
  | 0x3, _, _, _ => .ok (.skipEqual w.x w.immediate)
  | 0x4, _, _, _ => .ok (.skipUnequal w.x w.immediate)
  | 0x6, _, _, _ => .ok (.set w.x w.immediate)
  | 0x7, _, _, _ => .ok (.add w.x w.immediate)
  | 0x8, _, _, 0x0 => .ok (.copy w.x w.y)
  | 0x9, _, _, 0x0 => .ok (.skipDifferent w.x w.y)
  | 0xA, _, _, _ => .ok (.setIndex w.target)
  | 0xC, _, _, _ => .ok (.random w.x w.immediate)
  | 0xD, _, _, _ => .ok (.draw w.x w.y w.height)
  | 0xE, _, 0x9, 0xE => .ok (.skipPressed w.x)
  | 0xE, _, 0xA, 0x1 => .ok (.skipReleased w.x)
  | 0xF, _, 0x0, 0x7 => .ok (.readDelay w.x)
  | 0xF, _, 0x1, 0x5 => .ok (.setDelay w.x)
  | 0xF, _, 0x1, 0xE => .ok (.addIndex w.x)
  | _, _, _, _ => .error (.unknownWord w)

/-- The only fault of decoding names the word itself. -/
theorem eq_unknownWord_of_decode {w : Word} {f : Fault} (h : decode w = .error f) :
    f = .unknownWord w := by
  unfold decode at h
  split at h <;> cases h
  rfl

/-- The registers that an instruction names, those written to included. -/
def registers : Instruction → List Nat
  | skipEqual x _ | skipUnequal x _ | set x _ | add x _ | random x _ => [x]
  | copy x y | skipDifferent x y | draw x y _ => [x, y]
  | skipPressed x | skipReleased x | readDelay x | setDelay x | addIndex x => [x]
  | clear | ret | jump _ | call _ | setIndex _ => []

/-- No word names a register that does not exist. -/
theorem lt_of_mem_registers {w : Word} {i : Instruction} (h : decode w = .ok i) {x : Nat}
    (hx : x ∈ i.registers) : x < 16 := by
  have hX := w.x_lt
  have hY := w.y_lt
  unfold decode at h
  split at h <;> cases h <;> simp only [registers, List.mem_cons, List.not_mem_nil, or_false] at hx
  all_goals omega

/-- Only this instruction draws on the random source. -/
def usesChance : Instruction → Bool
  | random _ _ => true
  | _ => false

/-- The mask through which an instruction sees the byte that chance offers. -/
def mask? : Instruction → Option UInt8
  | random _ mask => some mask
  | _ => none

theorem usesChance_eq_isSome (i : Instruction) : i.usesChance = i.mask?.isSome := by
  cases i <;> rfl

/-- Only these instructions write the frame. -/
def paints : Instruction → Bool
  | clear | draw _ _ _ => true
  | _ => false

end Instruction

end ChipEight
