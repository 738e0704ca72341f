import ChipEight.Proofs.Moves

/-! Every machine that can be reached is well-formed: its stack pointer counts
at most sixteen return addresses, and each pixel of its frame is 0 or 1. On such
a machine no routine crashes. Every register that a word names exists, a call
stores and a return reads within the stack, a sprite flips only pixels of the
frame, and no counter leaves its range. -/

namespace ChipEight

theorem Frame.Binary.foldl_toggle {f : Frame} (hf : f.Binary) (ps : List Position) :
    (ps.foldl Frame.toggle f).Binary := by
  induction ps generalizing f with
  | nil => exact hf
  | cons p ps ih => exact ih (hf.toggle p)

namespace State

variable {s t : State}

theorem wellFormed_initial : initial.WellFormed := ⟨by decide, Frame.binary_dark⟩

theorem Effect.wellFormed (h : s.Effect t) (hs : s.WellFormed) : t.WellFormed := by
  refine ⟨h.sp_le hs.1, ?_⟩
  cases h with
  | cleared _ _ hframe =>
    rw [hframe]
    exact Frame.binary_dark
  | drawn lit _ _ hframe =>
    rw [hframe]
    exact hs.2.foldl_toggle lit
  | neither _ _ hframe | returned _ _ _ hframe | called _ _ _ hframe =>
    rw [hframe]
    exact hs.2

end State

namespace Operation

variable {σ : Type} [RandomSource σ] {m : Machine σ}

theorem wellFormed_apply (hm : m.state.WellFormed) (operation : Operation) :
    (operation.apply m).2.state.WellFormed := by
  by_cases hreset : operation = reset
  · subst hreset
    exact State.wellFormed_initial
  · exact (moves_apply hm.1 hreset).effect.wellFormed hm

theorem wellFormed_after (hm : m.state.WellFormed) (history : List Operation) :
    (after m history).state.WellFormed := by
  induction history generalizing m with
  | nil => exact hm
  | cons operation rest ih => exact ih (wellFormed_apply hm operation)

/-- Whatever is done to a new machine, it stays well-formed, and no routine of
any operation crashes on a well-formed machine. -/
theorem reachable_wellFormed_and_safe :
    (∀ (memory : Memory) (source : σ) (history : List Operation),
      (after (Machine.ofMemory memory source) history).state.WellFormed) ∧
    ∀ m : Machine σ, m.state.WellFormed → ∀ operation : Operation,
      (operation.apply m).2.state.WellFormed ∧
        (Action.exec operation.routine m).1 ≠ .error .crash := by
  refine ⟨?_, ?_⟩
  · intro memory source history
    exact wellFormed_after State.wellFormed_initial history
  · intro m hm operation
    exact ⟨wellFormed_apply hm operation, apply_ne_crash hm.1 operation⟩

/-- A machine in the sixteenth of sixteen nested routines, which then returns. -/
theorem deepest_return_safe :
    let m : Machine Progression :=
      { memory := Memory.zero, state := { State.initial with sp := 16 },
        source := { value := 0, increment := 0 } }
    m.state.WellFormed ∧ ((execute 0x00EE).apply m).2.state.WellFormed ∧
      (Action.exec (execute 0x00EE).routine m).1 ≠ .error .crash := by
  intro m
  have hm : m.state.WellFormed := ⟨by decide, Frame.binary_dark⟩
  exact ⟨hm, reachable_wellFormed_and_safe.2 m hm (execute 0x00EE)⟩

end Operation

end ChipEight
