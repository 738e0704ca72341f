import ChipEight.Proofs.Superposition

/-! What one sprite leaves behind. A draw that succeeds inverts the pixels that the sprite
covers and no others, tells by VF whether one of them was lit, and changes nothing else but
the program counter and the note that the frame is to be drawn again. The registers that
place the sprite are read before VF is written, so VF may be one of them. -/

namespace ChipEight

namespace State

variable {memory : Memory} {s : State} {w : Word}

/-- A pixel that the sprite of `w` covers is lit. -/
def Collides (memory : Memory) (s : State) (w : Word) : Prop :=
  ∃ (x : Fin 64) (y : Fin 32), Covers memory s w ⟨x, y⟩ ∧ s.frame.pixel x y = 1

/-- A sprite without rows may be taken from anywhere. -/
theorem Drawable.rows_in_memory (h : Drawable memory s w) :
    ∀ k < w.height.toNat, s.i.toNat + k < 4096 := by
  obtain ⟨⟨rows, hrows⟩, -⟩ := h
  intro k hk
  have hget := Memory.getElem?_of_readBytes hrows k
  have hlength : k < rows.length := (Memory.length_of_readBytes hrows).symm ▸ hk
  rw [if_pos hk, List.getElem?_eq_getElem hlength] at hget
  exact (Vector.getElem?_eq_some_iff.mp hget.symm).1

theorem flag_drawn_of_collides (h : Drawable memory s w) (hcollides : Collides memory s w) :
    (s.drawn (lit memory s w)).read Register.flag = 1 := by
  rw [read_flag_drawn, if_pos ((any_lit_iff h s.frame).mpr hcollides)]

theorem flag_drawn_of_not_collides (h : Drawable memory s w)
    (hcollides : ¬ Collides memory s w) :
    (s.drawn (lit memory s w)).read Register.flag = 0 := by
  rw [read_flag_drawn, if_neg fun hany => hcollides ((any_lit_iff h s.frame).mp hany)]

end State

namespace Operation

variable {σ : Type} [RandomSource σ] {m next : Machine σ} {w : Word} {reply : Reply}

/-- A sprite that is drawn has its rows in memory and covers positions on the screen only. The
pixels that it covers are inverted, and VF is 1 exactly if one of them was lit, else 0. The
frame is then to be drawn again, the program counter has advanced, and the rest is as before. -/
theorem draw_inverts_covered_pixels (hw : w.Fits .draw)
    (h : (execute w).apply m = (.ok reply, next)) :
    (∀ k < w.height.toNat, m.state.i.toNat + k < 4096) ∧
      (∀ p, m.state.Covers m.memory w p → p.OnScreen) ∧
      (∀ x y, next.state.frame.pixel x y =
        m.state.frame.pixel x y ^^^ if m.state.Covers m.memory w ⟨x.val, y.val⟩ then 1 else 0) ∧
      (m.state.Collides m.memory w → next.state.read Register.flag = 1) ∧
      (¬ m.state.Collides m.memory w → next.state.read Register.flag = 0) ∧
      (∀ x, x ≠ Register.flag → next.state.read x = m.state.read x) ∧
      next.state.redraw = true ∧
      next.state.pc.toNat = (m.state.pc.toNat + 2) % 65536 ∧
      next = { m with state := { m.state with
        v := next.state.v
        frame := next.state.frame
        redraw := next.state.redraw
        pc := next.state.pc } } := by
  have hdrawable : m.state.Drawable m.memory w :=
    (drawable_iff hw).mp ⟨reply, congrArg Prod.fst h⟩
  obtain rfl : drew m w = next :=
    congrArg Prod.snd ((apply_draw hw hdrawable).symm.trans h)
  have hplaces := m.state.samePlaces_drawn (m.state.lit m.memory w)
  refine ⟨hdrawable.rows_in_memory, ?_, State.pixel_drawn hdrawable,
    State.flag_drawn_of_collides hdrawable, State.flag_drawn_of_not_collides hdrawable,
    hplaces.read_eq, rfl, ?_, rfl⟩
  · exact fun p hcovers => hdrawable.2 p ((State.mem_lit_iff hdrawable).mpr hcovers)
  · exact UInt16.toNat_add m.state.pc 2

/-- Two rows in the right corner, over one lit pixel. VF gives the column, and the blank
right half of the sprite hangs off the screen. -/
theorem draw_inverts_covered_pixels_placed_by_flag :
    let m : Machine Progression :=
      { memory := Memory.zero.store 0x300 [0xA0, 0xF0]
        state := { State.initial with
          v := State.initial.v.setIfInBounds 15 60
          i := 0x300
          pc := 0xFFFF
          frame := Frame.dark.toggle ⟨62, 0⟩ }
        source := { value := 0, increment := 0 } }
    let w : Word := 0xDF02
    let next := after m [execute w]
    w.Fits .draw ∧ (execute w).apply m = (.ok .done, next) ∧
      next.state.frame.pixel 60 0 = 1 ∧ next.state.frame.pixel 61 0 = 0 ∧
      next.state.frame.pixel 62 0 = 0 ∧ next.state.frame.pixel 63 1 = 1 ∧
      next.state.read Register.flag = 1 ∧ next.state.pc.toNat = 1 := by
  intro m w next
  have hw : Word.Fits 0xDF02 .draw := ⟨rfl, trivial, trivial, trivial⟩
  have hreply : ((execute w).apply m).1 = .ok .done := by decide +kernel
  have happly : (execute w).apply m = (.ok .done, next) := Prod.ext hreply rfl
  have hcovers : m.state.Covers m.memory w ⟨62, 0⟩ := by decide +kernel
  have hlit : m.state.frame.pixel 62 0 = 1 := by decide +kernel
  obtain ⟨-, -, hpixel, hflag, -, -, -, hpc, -⟩ := draw_inverts_covered_pixels hw happly
  refine ⟨hw, happly, ?_, ?_, ?_, ?_, hflag ⟨62, 0, hcovers, hlit⟩,
    hpc.trans (by decide +kernel)⟩
  · exact (hpixel 60 0).trans (by decide +kernel)
  · exact (hpixel 61 0).trans (by decide +kernel)
  · exact (hpixel 62 0).trans (by decide +kernel)
  · exact (hpixel 63 1).trans (by decide +kernel)

end Operation

end ChipEight
