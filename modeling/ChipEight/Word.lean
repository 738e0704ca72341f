/-! Instruction words. A word is sixteen bits in big-endian order, read as four
nibbles; the fields that operands come from overlap. All fields are given by
division and remainder, so that `omega` decides questions about them. -/

namespace ChipEight

abbrev Word := UInt16

namespace Word

/-- The word whose first byte in memory is `hi`. -/
def ofBytes (hi lo : UInt8) : Word := UInt16.ofNat (256 * hi.toNat + lo.toNat)

/-- The two bytes of a word as they stand in memory. -/
def bytes (w : Word) : List UInt8 := [UInt8.ofNat (w.toNat / 256), UInt8.ofNat w.toNat]

/-- Nibble `k`: nibble 0 is the least significant, nibble 3 the most. -/
def nibble (w : Word) : (k : Nat) → Nat
  | 0 => w.toNat % 16
  | 1 => w.toNat / 16 % 16
  | 2 => w.toNat / 256 % 16
  | _ => w.toNat / 4096

theorem nibble_lt (w : Word) (k : Nat) : w.nibble k < 16 := by
  have := w.toNat_lt
  unfold nibble
  split <;> omega

/-- The number of the first register operand, nibble 2. -/
def x (w : Word) : Nat := w.nibble 2

/-- The number of the second register operand, nibble 1. -/
def y (w : Word) : Nat := w.nibble 1

/-- The number of rows of a sprite, nibble 0. -/
def height (w : Word) : UInt8 := UInt8.ofNat (w.nibble 0)

/-- The immediate operand, the low byte. -/
def immediate (w : Word) : UInt8 := UInt8.ofNat (w.toNat % 256)

/-- The address operand, the low twelve bits. -/
def target (w : Word) : UInt16 := UInt16.ofNat (w.toNat % 4096)

theorem toNat_ofBytes (hi lo : UInt8) : (ofBytes hi lo).toNat = 256 * hi.toNat + lo.toNat := by
  have := hi.toNat_lt
  have := lo.toNat_lt
  simp only [ofBytes, UInt16.toNat_ofNat']
  omega

theorem eq_ofBytes_iff {w : Word} {hi lo : UInt8} :
    w = ofBytes hi lo ↔ w.toNat = 256 * hi.toNat + lo.toNat := by
  rw [← toNat_ofBytes, UInt16.toNat_inj]

/-- The bytes of a word make up that word. -/
theorem ofBytes_bytes (w : Word) :
    ofBytes (UInt8.ofNat (w.toNat / 256)) (UInt8.ofNat w.toNat) = w := by
  have := w.toNat_lt
  apply UInt16.toNat_inj.mp
  rw [toNat_ofBytes]
  simp only [UInt8.toNat_ofNat']
  omega

theorem toNat_target (w : Word) : w.target.toNat = w.toNat % 4096 := by
  simp only [target, UInt16.toNat_ofNat']
  omega

theorem toNat_immediate (w : Word) : w.immediate.toNat = w.toNat % 256 := by
  simp only [immediate, UInt8.toNat_ofNat']
  omega

theorem toNat_height (w : Word) : w.height.toNat = w.toNat % 16 := by
  simp only [height, nibble, UInt8.toNat_ofNat']
  omega

theorem x_lt (w : Word) : w.x < 16 := w.nibble_lt 2

theorem y_lt (w : Word) : w.y < 16 := w.nibble_lt 1

/-- A word is the four nibbles put together. -/
theorem toNat_eq_nibbles (w : Word) :
    w.toNat = 4096 * w.nibble 3 + 256 * w.nibble 2 + 16 * w.nibble 1 + w.nibble 0 := by
  have := w.toNat_lt
  simp only [nibble]
  omega

end Word

end ChipEight
