import ChipEight.Proofs.Mirror
import ChipEight.Proofs.Performed
import Mathlib.Data.List.Basic
import Mathlib.Data.List.Induction

/-! When a request for the frame is answered with one. The wish for the frame to be drawn
again stands exactly while some instruction has painted the frame since it was last asked
for and since the latest reset: only a clear and a draw that succeed raise it, also where
they change no pixel, and only a request and a reset take it back. -/

namespace ChipEight.Operation

variable {σ : Type} [RandomSource σ] {m next : Machine σ} {operation : Operation}
  {reply : Except Stop Reply} {history : List Operation}

/-- An instruction that writes the frame was carried out since the frame was last asked
for and since the latest reset. -/
def PaintedLately (m : Machine σ) (history : List Operation) : Prop :=
  ∃ before since, history = before ++ since ∧ takeFrame ∉ since ∧ reset ∉ since ∧
    ∃ i ∈ instructions (after m before) since, i.paints = true

theorem not_paintedLately_nil (m : Machine σ) : ¬ PaintedLately m [] := by
  rintro ⟨before, since, hsplit, -, -, i, hi, -⟩
  obtain ⟨-, rfl⟩ := List.append_eq_nil_iff.mp hsplit.symm
  cases hi

theorem paintedLately_concat : PaintedLately m (history ++ [operation]) ↔
    (∃ i ∈ instructions (after m history) [operation], i.paints = true) ∨
      PaintedLately m history ∧ operation ≠ takeFrame ∧ operation ≠ reset := by
  constructor
  · rintro ⟨before, since, hsplit, htake, hreset, i, hi, hpaints⟩
    rcases List.eq_nil_or_concat' since with rfl | ⟨front, last, rfl⟩
    · cases hi
    · rw [← List.append_assoc] at hsplit
      obtain ⟨rfl, hlast⟩ := List.append_inj' hsplit rfl
      cases hlast
      simp only [List.mem_append, List.mem_singleton, not_or] at htake hreset
      rw [instructions_append, ← after_append, List.mem_append] at hi
      rcases hi with hi | hi
      · have hfront : PaintedLately m (before ++ front) :=
          ⟨before, front, rfl, htake.1, hreset.1, i, hi, hpaints⟩
        exact .inr ⟨hfront, Ne.symm htake.2, Ne.symm hreset.2⟩
      · exact .inl ⟨i, hi, hpaints⟩
  · rintro (⟨i, hi, hpaints⟩ | ⟨⟨before, since, rfl, htake, hreset, i, hi, hpaints⟩, hne⟩)
    -- The last operation carries out an instruction, so it is neither of the two.
    · refine ⟨history, [operation], rfl, ?_, ?_, i, hi, hpaints⟩
      all_goals
        rw [List.mem_singleton]
        rintro rfl
        cases hi
    · refine ⟨before, since ++ [operation], List.append_assoc .., ?_, ?_, i, ?_, hpaints⟩
      · simp [htake, Ne.symm hne.1]
      · simp [hreset, Ne.symm hne.2]
      · rw [instructions_append]
        exact List.mem_append_left _ hi

theorem redraw_iff_of_execute {memory : Memory} {roll : UInt8} {s t : State}
    {instruction : Instruction} (h : s.execute memory roll instruction = .ok t) :
    t.redraw = true ↔ instruction.paints = true ∨ s.redraw = true := by
  rcases State.redraw_of_execute h with ⟨hpaints, hraised⟩ | ⟨hpaints, -, hredraw⟩
  · simp [hpaints, hraised]
  · simp [hpaints, hredraw]

/-- What an operation makes of the wish for the frame to be drawn again. -/
theorem Outcome.redraw_iff (h : operation.Outcome m reply next) :
    next.state.redraw = true ↔
      (∃ i ∈ (operation.performed m reply).toList, i.paints = true) ∨
        m.state.redraw = true ∧ operation ≠ .takeFrame ∧ operation ≠ .reset := by
  cases h with
  | stepped hfetch hdecode hstate =>
    rw [performed_step hfetch hdecode]
    refine (redraw_iff_of_execute hstate).trans ?_
    simp
  | executed hdecode hstate =>
    rw [performed_execute hdecode]
    refine (redraw_iff_of_execute hstate).trans ?_
    simp
  | failed hfails =>
    have htake : operation ≠ .takeFrame := by
      rintro rfl
      cases hfails
    have hreset : operation ≠ .reset := by
      rintro rfl
      cases hfails
    simp [performed, htake, hreset]
  | reset | taken | kept => simp_all [performed, instruction?, word?, Machine.reset, State.initial]
  | loaded | pressed | released | written =>
    simp [performed, instruction?, word?, Machine.writeKey, State.writeKey]

theorem redraw_after_iff (hsp : m.state.sp.toNat ≤ 16) (hdark : m.state.redraw = false)
    (history : List Operation) :
    (after m history).state.redraw = true ↔ PaintedLately m history := by
  induction history using List.reverseRecOn with
  | nil => simp [after, hdark, not_paintedLately_nil]
  | append_singleton history operation ih =>
    have hlast := outcome_apply (sp_le_after hsp history) operation
    rw [paintedLately_concat, ← ih, after_append, instructions, collect, collect,
      List.append_nil]
    exact hlast.redraw_iff

theorem apply_takeFrame (m : Machine σ) :
    takeFrame.apply m = (.ok (.frame (if m.state.redraw then some m.state.frame else none)),
      { m with state := { m.state with redraw := false } }) := rfl

/-- A request for the frame is answered with the frame as it is if an instruction has
painted it since the last request and the latest reset, and otherwise with none. It changes
nothing but the wish for the frame to be drawn again. -/
theorem takeFrame_hands_out_iff_painted (memory : Memory) (source : σ)
    (history : List Operation) :
    let m := Machine.ofMemory memory source
    let now := after m history
    ∃ taken,
      takeFrame.apply now =
        (.ok (.frame taken), { now with state := { now.state with redraw := false } }) ∧
      (taken = some now.state.frame ↔ PaintedLately m history) ∧
      (taken = none ↔ ¬ PaintedLately m history) := by
  intro m now
  have hsp : m.state.sp.toNat ≤ 16 := Nat.zero_le 16
  have hredraw : now.state.redraw = true ↔ PaintedLately m history :=
    redraw_after_iff hsp rfl history
  refine ⟨_, apply_takeFrame now, ?_, ?_⟩
  · rw [← hredraw]
    cases now.state.redraw <;> simp
  · rw [← hredraw]
    cases now.state.redraw <;> simp

end ChipEight.Operation
