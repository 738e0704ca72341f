/-! Frames of 64 columns and 32 rows. A pixel is a byte, kept row by row from
the top left corner; exactly the value 1 is lit. Positions off the screen read
as dark and cannot be written. -/

namespace ChipEight

abbrev Frame := Vector UInt8 2048

namespace Frame

def dark : Frame := Vector.replicate 2048 0

def pixel (f : Frame) (x : Fin 64) (y : Fin 32) : UInt8 := f[x.val + 64 * y.val]

/-- Every pixel is 0 or 1, as in all frames that a machine can have. -/
def Binary (f : Frame) : Prop := ∀ i : Fin 2048, f[i] = 0 ∨ f[i] = 1

/-- The pixels row by row from the top, each row from the left. -/
def rows (f : Frame) : List (List UInt8) :=
  (List.finRange 32).map fun y => (List.finRange 64).map fun x => f.pixel x y

end Frame

/-- A column and a row, counted from the top left corner. -/
structure Position where
  x : Nat
  y : Nat
  deriving DecidableEq, Repr

namespace Position

def OnScreen (p : Position) : Prop := p.x < 64 ∧ p.y < 32

instance (p : Position) : Decidable p.OnScreen := inferInstanceAs (Decidable (_ ∧ _))

end Position

namespace Frame

def isLit (f : Frame) (p : Position) : Bool :=
  if h : p.x < 64 ∧ p.y < 32 then f[p.x + 64 * p.y] == 1 else false

/-- The frame with the lowest bit of one pixel inverted. -/
def toggle (f : Frame) (p : Position) : Frame :=
  if h : p.x < 64 ∧ p.y < 32 then f.setIfInBounds (p.x + 64 * p.y) (f[p.x + 64 * p.y] ^^^ 1)
  else f

theorem binary_dark : dark.Binary := by
  intro i
  left
  simp [dark]

theorem getElem_toggle (f : Frame) (p : Position) (i : Nat) (hi : i < 2048) :
    (f.toggle p)[i] = if p.OnScreen ∧ i = p.x + 64 * p.y then f[i] ^^^ 1 else f[i] := by
  unfold toggle Position.OnScreen
  split
  · rename_i h
    by_cases hp : p.x + 64 * p.y = i
    · subst hp
      simp [h]
    · simp [h, hp, Ne.symm hp]
  · rename_i h
    simp [h]

theorem pixel_toggle (f : Frame) (p : Position) (x : Fin 64) (y : Fin 32) :
    (f.toggle p).pixel x y = if p = ⟨x, y⟩ then f.pixel x y ^^^ 1 else f.pixel x y := by
  have hiff : p.OnScreen ∧ x.val + 64 * y.val = p.x + 64 * p.y ↔ p = ⟨x, y⟩ := by
    unfold Position.OnScreen
    cases p
    simp only [Position.mk.injEq]
    omega
  unfold pixel
  simp only [getElem_toggle, hiff]

theorem ext_pixel {f g : Frame} (h : ∀ x y, f.pixel x y = g.pixel x y) : f = g := by
  refine Vector.ext fun i hi => ?_
  have hpixel := h ⟨i % 64, by omega⟩ ⟨i / 64, by omega⟩
  simpa only [pixel, Nat.mod_add_div] using hpixel

theorem isLit_eq_pixel (f : Frame) (x : Fin 64) (y : Fin 32) :
    f.isLit ⟨x, y⟩ = (f.pixel x y == 1) := dif_pos ⟨x.isLt, y.isLt⟩

/-- To toggle one pixel leaves every other pixel as it is. -/
theorem isLit_toggle_of_ne (f : Frame) {p q : Position} (h : p ≠ q) :
    (f.toggle p).isLit q = f.isLit q := by
  unfold isLit
  split
  · rename_i hq
    rw [getElem_toggle, if_neg]
    intro h'
    obtain ⟨hp, heq⟩ := h'
    unfold Position.OnScreen at hp
    apply h
    cases p
    cases q
    simp only [Position.mk.injEq] at hp heq hq ⊢
    omega
  · rfl

theorem Binary.toggle {f : Frame} (hf : f.Binary) (p : Position) : (f.toggle p).Binary := by
  intro i
  show (f.toggle p)[i.val] = 0 ∨ (f.toggle p)[i.val] = 1
  rw [getElem_toggle]
  have h : f[i.val] = 0 ∨ f[i.val] = 1 := hf i
  split
  · rcases h with h | h <;> simp [h]
  · exact h

end Frame

end ChipEight
