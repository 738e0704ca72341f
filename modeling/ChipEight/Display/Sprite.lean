import ChipEight.Display.Frame
import ChipEight.Fault

/-! Sprites. A sprite is a list of rows, one byte each, whose set bits are drawn
by inverting pixels. It is drawn whole or not at all: one set bit that falls
off the screen is a fault, whereas clear bits may hang over the edge. -/

namespace ChipEight

namespace Sprite

/-- The positions that one row lights, from the left. The leftmost pixel is the
most significant bit. -/
def rowPositions (row : UInt8) (x y : Nat) : List Position :=
  (List.range 8).filterMap fun bit =>
    if row.toNat.testBit (7 - bit) then some ⟨x + bit, y⟩ else none

/-- The positions that a sprite lights with its top left corner at column `x`
and row `y`: its rows from the top, each from the left. -/
def positions (rows : List UInt8) (x y : Nat) : List Position :=
  match rows with
  | [] => []
  | row :: rest => rowPositions row x y ++ positions rest x (y + 1)

theorem mem_rowPositions {row : UInt8} {x y : Nat} {p : Position} :
    p ∈ rowPositions row x y ↔
      p.y = y ∧ x ≤ p.x ∧ p.x < x + 8 ∧ row.toNat.testBit (7 - (p.x - x)) = true := by
  simp only [rowPositions, List.mem_filterMap, List.mem_range]
  constructor
  · intro h'
    obtain ⟨bit, hb, h⟩ := h'
    split at h
    · rename_i ht
      cases h
      exact ⟨rfl, by simp, by simp; omega, by simpa using ht⟩
    · cases h
  · intro h'
    obtain ⟨hy, hlo, hhi, ht⟩ := h'
    refine ⟨p.x - x, by omega, ?_⟩
    rw [if_pos ht]
    cases p
    simp_all

/-- A position is lit when the bit of the sprite that covers it is set. -/
theorem mem_positions {rows : List UInt8} {x y : Nat} {p : Position} :
    p ∈ positions rows x y ↔
      y ≤ p.y ∧ x ≤ p.x ∧ p.x < x + 8 ∧
        ∃ row, rows[p.y - y]? = some row ∧ row.toNat.testBit (7 - (p.x - x)) = true := by
  induction rows generalizing y with
  | nil => simp [positions]
  | cons row rest ih =>
    rw [positions, List.mem_append, mem_rowPositions, ih]
    constructor
    · intro h'
      rcases h' with ⟨rfl, hlo, hhi, ht⟩ | ⟨hy, hlo, hhi, ht⟩
      · exact ⟨Nat.le_refl _, hlo, hhi, row, by simp, ht⟩
      · refine ⟨by omega, hlo, hhi, ?_⟩
        rw [show p.y - y = (p.y - (y + 1)) + 1 by omega]
        simpa using ht
    · intro h'
      obtain ⟨hy, hlo, hhi, r, hr, ht⟩ := h'
      by_cases h : p.y = y
      · left
        have : r = row := by simpa [h] using hr.symm
        exact ⟨h, hlo, hhi, this ▸ ht⟩
      · right
        refine ⟨by omega, hlo, hhi, r, ?_, ht⟩
        rw [show p.y - y = (p.y - (y + 1)) + 1 by omega] at hr
        simpa using hr

/-- The order of drawing: rows from the top, each from the left. -/
def Before (p q : Position) : Prop := p.y < q.y ∨ p.y = q.y ∧ p.x < q.x

theorem rowPositions_pairwise (row : UInt8) (x y : Nat) :
    (rowPositions row x y).Pairwise Before := by
  unfold rowPositions
  refine List.Pairwise.filterMap _ ?_ List.pairwise_lt_range
  intro a b hab p hp q hq
  split at hp
  · split at hq
    · cases hp
      cases hq
      exact .inr ⟨rfl, Nat.add_lt_add_left hab x⟩
    · cases hq
  · cases hp

theorem positions_pairwise (rows : List UInt8) (x y : Nat) :
    (positions rows x y).Pairwise Before := by
  induction rows generalizing y with
  | nil => exact .nil
  | cons row rest ih =>
    rw [positions, List.pairwise_append]
    refine ⟨rowPositions_pairwise row x y, ih (y + 1), ?_⟩
    intro p hp q hq
    obtain ⟨hpy, -⟩ := mem_rowPositions.mp hp
    obtain ⟨hqy, -⟩ := mem_positions.mp hq
    left
    omega

theorem positions_nodup (rows : List UInt8) (x y : Nat) : (positions rows x y).Nodup := by
  refine (positions_pairwise rows x y).imp ?_
  intro p q hpq heq
  subst heq
  rcases hpq with h | ⟨-, h⟩ <;> exact absurd h (Nat.lt_irrefl _)

end Sprite

/-- What drawing leaves behind: the new frame, and whether a lit pixel went dark. -/
structure Drawing where
  frame : Frame
  collision : Bool

namespace Frame

def draw (f : Frame) (rows : List UInt8) (x y : Nat) : Except Fault Drawing :=
  let lit := Sprite.positions rows x y
  match lit.find? fun p => !decide p.OnScreen with
  | some p => .error (.pixelOffScreen p.x p.y)
  | none => .ok { frame := lit.foldl toggle f, collision := lit.any f.isLit }

/-- A sprite is drawn exactly when all that it lights is on the screen. -/
theorem draw_eq_ok_iff {f : Frame} {rows : List UInt8} {x y : Nat} {d : Drawing} :
    f.draw rows x y = .ok d ↔
      (∀ p ∈ Sprite.positions rows x y, p.OnScreen) ∧
        d = ⟨(Sprite.positions rows x y).foldl toggle f,
          (Sprite.positions rows x y).any f.isLit⟩ := by
  unfold draw
  dsimp only
  split
  · rename_i p hp
    have hm := List.mem_of_find?_eq_some hp
    have hs : ¬ p.OnScreen := by simpa using List.find?_some hp
    constructor
    · intro h
      cases h
    · intro h'
      obtain ⟨hall, -⟩ := h'
      exact absurd (hall p hm) hs
  · rename_i hn
    have hall : ∀ p ∈ Sprite.positions rows x y, p.OnScreen := by simpa using hn
    constructor
    · intro h
      cases h
      exact ⟨hall, rfl⟩
    · intro h'
      obtain ⟨-, rfl⟩ := h'
      rfl

/-- The fault of a sprite names the first lit position that is off the screen. -/
theorem draw_eq_error_iff {f : Frame} {rows : List UInt8} {x y : Nat} {fault : Fault} :
    f.draw rows x y = .error fault ↔
      ∃ p, (Sprite.positions rows x y).find? (fun p => !decide p.OnScreen) = some p ∧
        fault = .pixelOffScreen p.x p.y := by
  unfold draw
  dsimp only
  split
  · rename_i p hp
    constructor
    · intro h
      cases h
      exact ⟨p, hp, rfl⟩
    · intro h'
      obtain ⟨q, hq, rfl⟩ := h'
      obtain rfl : p = q := Option.some.inj (hp.symm.trans hq)
      rfl
  · rename_i hn
    constructor
    · intro h
      cases h
    · intro h'
      obtain ⟨q, hq, -⟩ := h'
      rw [hn] at hq
      cases hq

end Frame

end ChipEight
