/-! Where random bytes come from. A source is any type whose values give a byte
and the source that is left, so that it can be read as the stream of its bytes.
`Progression` counts up by a fixed amount, which makes a run repeatable byte for
byte. -/

namespace ChipEight

class RandomSource (σ : Type) where
  next : σ → UInt8 × σ

namespace RandomSource

variable {σ : Type} [RandomSource σ]

/-- What is left of a source behind its first `n` bytes. -/
def drop (source : σ) : Nat → σ
  | 0 => source
  | n + 1 => drop (next source).2 n

/-- The byte that a source gives behind `n` others. -/
def byte (source : σ) (n : Nat) : UInt8 := (next (drop source n)).1

theorem drop_add (source : σ) (a b : Nat) : drop source (a + b) = drop (drop source a) b := by
  induction a generalizing source with
  | zero => rw [Nat.zero_add, drop]
  | succ a ih => rw [Nat.succ_add, drop, ih, drop]

theorem byte_drop (source : σ) (a b : Nat) : byte (drop source a) b = byte source (a + b) := by
  rw [byte, byte, drop_add]

end RandomSource

/-- A number whose low byte comes next, and what is added to it each time. -/
structure Progression where
  value : UInt64
  increment : UInt64
  deriving DecidableEq

instance : RandomSource Progression where
  next p := (p.value.toUInt8, { p with value := p.value + p.increment })

end ChipEight
