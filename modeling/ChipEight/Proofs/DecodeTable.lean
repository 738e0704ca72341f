import ChipEight.Instruction

/-! The instruction set as a table. A row is a pattern of digits with the
instruction of every word that fits it. A word that fits no pattern has no
instruction, and no word has one in any other way. -/

namespace ChipEight

/-- The rows of the table, each by the instruction that it gives. -/
inductive Pattern where
  | clear | ret | jump | call | skipEqual | skipUnequal | set | add | copy | skipDifferent
  | setIndex | random | draw | skipPressed | skipReleased | readDelay | setDelay | addIndex
  deriving DecidableEq, Repr

namespace Pattern

/-- The digits of a pattern, the most significant first; `none` leaves one open. -/
def digits : Pattern → Option Nat × Option Nat × Option Nat × Option Nat
  | clear => (some 0x0, some 0x0, some 0xE, some 0x0)
  | ret => (some 0x0, some 0x0, some 0xE, some 0xE)
  | jump => (some 0x1, none, none, none)
  | call => (some 0x2, none, none, none)
  | skipEqual => (some 0x3, none, none, none)
  | skipUnequal => (some 0x4, none, none, none)
  | set => (some 0x6, none, none, none)
  | add => (some 0x7, none, none, none)
  | copy => (some 0x8, none, none, some 0x0)
  | skipDifferent => (some 0x9, none, none, some 0x0)
  | setIndex => (some 0xA, none, none, none)
  | random => (some 0xC, none, none, none)
  | draw => (some 0xD, none, none, none)
  | skipPressed => (some 0xE, none, some 0x9, some 0xE)
  | skipReleased => (some 0xE, none, some 0xA, some 0x1)
  | readDelay => (some 0xF, none, some 0x0, some 0x7)
  | setDelay => (some 0xF, none, some 0x1, some 0x5)
  | addIndex => (some 0xF, none, some 0x1, some 0xE)

def instruction (w : Word) : Pattern → Instruction
  | clear => .clear
  | ret => .ret
  | jump => .jump w.target
  | call => .call w.target
  | skipEqual => .skipEqual w.x w.immediate
  | skipUnequal => .skipUnequal w.x w.immediate
  | set => .set w.x w.immediate
  | add => .add w.x w.immediate
  | copy => .copy w.x w.y
  | skipDifferent => .skipDifferent w.x w.y
  | setIndex => .setIndex w.target
  | random => .random w.x w.immediate
  | draw => .draw w.x w.y w.height
  | skipPressed => .skipPressed w.x
  | skipReleased => .skipReleased w.x
  | readDelay => .readDelay w.x
  | setDelay => .setDelay w.x
  | addIndex => .addIndex w.x

end Pattern

namespace Word

/-- Whether a digit is the one that is wanted, if one is. -/
def Agrees (digit : Nat) : Option Nat → Prop
  | none => True
  | some wanted => digit = wanted

def Fits (w : Word) (p : Pattern) : Prop :=
  Agrees (w.nibble 3) p.digits.1 ∧ Agrees (w.nibble 2) p.digits.2.1 ∧
    Agrees (w.nibble 1) p.digits.2.2.1 ∧ Agrees (w.nibble 0) p.digits.2.2.2

end Word

namespace Instruction

theorem decode_of_fits {w : Word} {p : Pattern} (h : w.Fits p) :
    decode w = .ok (p.instruction w) := by
  cases p <;> simp only [Word.Fits, Pattern.digits, Word.Agrees, and_true] at h <;>
    simp [decode, Pattern.instruction, h]

theorem eq_of_fits {w : Word} {i : Instruction} {p : Pattern} (h : decode w = .ok i)
    (hp : w.Fits p) : i = p.instruction w :=
  Except.ok.inj (h.symm.trans (decode_of_fits hp))

theorem exists_fits_of_decode {w : Word} {i : Instruction} (h : decode w = .ok i) :
    ∃ p, w.Fits p ∧ i = p.instruction w := by
  unfold decode at h
  split at h <;> cases h
  · exact ⟨.clear, ⟨‹_›, ‹_›, ‹_›, ‹_›⟩, rfl⟩
  · exact ⟨.ret, ⟨‹_›, ‹_›, ‹_›, ‹_›⟩, rfl⟩
  · exact ⟨.jump, ⟨‹_›, trivial, trivial, trivial⟩, rfl⟩
  · exact ⟨.call, ⟨‹_›, trivial, trivial, trivial⟩, rfl⟩
  · exact ⟨.skipEqual, ⟨‹_›, trivial, trivial, trivial⟩, rfl⟩
  · exact ⟨.skipUnequal, ⟨‹_›, trivial, trivial, trivial⟩, rfl⟩
  · exact ⟨.set, ⟨‹_›, trivial, trivial, trivial⟩, rfl⟩
  · exact ⟨.add, ⟨‹_›, trivial, trivial, trivial⟩, rfl⟩
  · exact ⟨.copy, ⟨‹_›, trivial, trivial, ‹_›⟩, rfl⟩
  · exact ⟨.skipDifferent, ⟨‹_›, trivial, trivial, ‹_›⟩, rfl⟩
  · exact ⟨.setIndex, ⟨‹_›, trivial, trivial, trivial⟩, rfl⟩
  · exact ⟨.random, ⟨‹_›, trivial, trivial, trivial⟩, rfl⟩
  · exact ⟨.draw, ⟨‹_›, trivial, trivial, trivial⟩, rfl⟩
  · exact ⟨.skipPressed, ⟨‹_›, trivial, ‹_›, ‹_›⟩, rfl⟩
  · exact ⟨.skipReleased, ⟨‹_›, trivial, ‹_›, ‹_›⟩, rfl⟩
  · exact ⟨.readDelay, ⟨‹_›, trivial, ‹_›, ‹_›⟩, rfl⟩
  · exact ⟨.setDelay, ⟨‹_›, trivial, ‹_›, ‹_›⟩, rfl⟩
  · exact ⟨.addIndex, ⟨‹_›, trivial, ‹_›, ‹_›⟩, rfl⟩

/-- The word that an instruction is decoded from, if its operands fit in their digits. -/
def word : Instruction → Word
  | clear => 0x00E0
  | ret => 0x00EE
  | jump target => UInt16.ofNat (0x1000 + target.toNat)
  | call target => UInt16.ofNat (0x2000 + target.toNat)
  | skipEqual x value => UInt16.ofNat (0x3000 + 256 * x + value.toNat)
  | skipUnequal x value => UInt16.ofNat (0x4000 + 256 * x + value.toNat)
  | set x value => UInt16.ofNat (0x6000 + 256 * x + value.toNat)
  | add x value => UInt16.ofNat (0x7000 + 256 * x + value.toNat)
  | copy x y => UInt16.ofNat (0x8000 + 256 * x + 16 * y)
  | skipDifferent x y => UInt16.ofNat (0x9000 + 256 * x + 16 * y)
  | setIndex target => UInt16.ofNat (0xA000 + target.toNat)
  | random x mask => UInt16.ofNat (0xC000 + 256 * x + mask.toNat)
  | draw x y height => UInt16.ofNat (0xD000 + 256 * x + 16 * y + height.toNat)
  | skipPressed x => UInt16.ofNat (0xE09E + 256 * x)
  | skipReleased x => UInt16.ofNat (0xE0A1 + 256 * x)
  | readDelay x => UInt16.ofNat (0xF007 + 256 * x)
  | setDelay x => UInt16.ofNat (0xF015 + 256 * x)
  | addIndex x => UInt16.ofNat (0xF01E + 256 * x)

/-- Decoding keeps every digit: those of the pattern in the instruction, the open ones in its
operands. -/
theorem word_of_decode {w : Word} {i : Instruction} (h : decode w = .ok i) : i.word = w := by
  obtain ⟨p, hp, rfl⟩ := exists_fits_of_decode h
  have hsize := w.toNat_lt
  refine UInt16.toNat_inj.mp ?_
  cases p with
  | clear | ret =>
    obtain ⟨h3, h2, h1, h0⟩ := hp
    rw [w.toNat_eq_nibbles, h3, h2, h1, h0]
    rfl
  | _ =>
    simp only [Word.Fits, Pattern.digits, Word.Agrees, Word.nibble, and_true] at hp
    simp only [Pattern.instruction, word, UInt16.toNat_ofNat', Word.toNat_target,
      Word.toNat_immediate, Word.toNat_height, Word.x, Word.y, Word.nibble]
    omega

theorem decode_eq_error_iff {w : Word} {fault : Fault} :
    decode w = .error fault ↔ fault = .unknownWord w ∧ ∀ p, ¬ w.Fits p := by
  constructor
  · intro h
    refine ⟨eq_unknownWord_of_decode h, fun p hp => ?_⟩
    rw [decode_of_fits hp] at h
    cases h
  · intro h
    obtain ⟨rfl, hnone⟩ := h
    cases h : decode w with
    | error fault => rw [eq_unknownWord_of_decode h]
    | ok i =>
      obtain ⟨p, hp, -⟩ := exists_fits_of_decode h
      exact absurd hp (hnone p)

end Instruction

end ChipEight
