import ChipEight.Proofs.Moves

/-! A display that is repainted with every frame it is handed. Whatever changes the
frame of a machine asks for it to be drawn again, but for a reset, which darkens the
frame and asks for nothing. So the display is right whenever frames have just been
asked for, except that it can go on showing the picture from before a reset; it does
so until the next frame is handed out, and the frame of the machine is dark then. -/

namespace ChipEight

/-- An instruction that paints asks for the frame to be drawn again. No other changes
the frame, or what was asked for. -/
theorem State.redraw_of_execute {memory : Memory} {roll : UInt8} {s t : State}
    {instruction : Instruction} (h : s.execute memory roll instruction = .ok t) :
    instruction.paints = true ∧ t.redraw = true ∨
      instruction.paints = false ∧ t.frame = s.frame ∧ t.redraw = s.redraw := by
  cases instruction with
  | clear =>
    cases h
    exact .inl ⟨rfl, rfl⟩
  | draw x y height =>
    obtain ⟨rows, -, -, rfl⟩ := draw_eq_ok_iff.mp h
    exact .inl ⟨rfl, rfl⟩
  | ret =>
    obtain ⟨-, rfl⟩ := pop_eq_ok h
    exact .inr ⟨rfl, rfl, rfl⟩
  | call target =>
    obtain ⟨-, rfl⟩ := push_eq_ok h
    exact .inr ⟨rfl, rfl, rfl⟩
  | skipPressed x | skipReleased x =>
    obtain ⟨held, -, rfl⟩ := map_eq_ok h
    exact .inr ⟨rfl, rfl, rfl⟩
  | addIndex x =>
    obtain ⟨-, rfl⟩ := addIndex_eq_ok h
    exact .inr ⟨rfl, rfl, rfl⟩
  | _ =>
    cases h
    exact .inr ⟨rfl, rfl, rfl⟩

namespace Operation

/-- What a display shows behind a reply, if it showed `picture` before. -/
def repaint (picture : Frame) : Except Stop Reply → Frame
  | .ok (.frame (some frame)) => frame
  | _ => picture

/-- Some reply hands out a frame. -/
def HandsOut (replies : List (Except Stop Reply)) : Prop :=
  ∃ frame, .ok (.frame (some frame)) ∈ replies

theorem foldl_repaint_of_not_handsOut {replies : List (Except Stop Reply)}
    (h : ¬ HandsOut replies) (picture : Frame) : replies.foldl repaint picture = picture := by
  induction replies with
  | nil => rfl
  | cons reply rest ih =>
    have hrest : ¬ HandsOut rest := fun ⟨frame, hmem⟩ => h ⟨frame, .tail _ hmem⟩
    have hreply : repaint picture reply = picture := by
      unfold repaint
      split
      · exact absurd ⟨_, .head _⟩ h
      · rfl
    rw [List.foldl_cons, hreply, ih hrest]

/-- Once a frame is handed out it does not matter what was shown before. -/
theorem foldl_repaint_of_handsOut {replies : List (Except Stop Reply)} (h : HandsOut replies)
    (picture other : Frame) : replies.foldl repaint picture = replies.foldl repaint other := by
  induction replies generalizing picture other with
  | nil =>
    obtain ⟨frame, hmem⟩ := h
    cases hmem
  | cons reply rest ih =>
    by_cases hrest : HandsOut rest
    · exact ih hrest _ _
    · obtain ⟨frame, hmem⟩ := h
      rcases List.mem_cons.mp hmem with rfl | hmem
      · rfl
      · exact absurd ⟨frame, hmem⟩ hrest

variable {σ : Type} [RandomSource σ] {m : Machine σ}

/-- What a display shows behind a history, if it showed `picture` before. -/
def mirror (m : Machine σ) (picture : Frame) (history : List Operation) : Frame :=
  (replies m history).foldl repaint picture

theorem mirror_append (m : Machine σ) (picture : Frame) (h k : List Operation) :
    mirror m picture (h ++ k) = mirror (after m h) (mirror m picture h) k := by
  simp only [mirror, replies_append, List.foldl_append]

theorem mirror_reset (m : Machine σ) (picture : Frame) (history : List Operation) :
    mirror m picture (history ++ [reset]) = mirror m picture history :=
  mirror_append m picture history [reset]

/-- The picture is the frame, or else the frame is to be drawn again. -/
def Current (m : Machine σ) (picture : Frame) : Prop :=
  m.state.redraw = true ∨ picture = m.state.frame

theorem Outcome.current {operation : Operation} {reply : Except Stop Reply} {next : Machine σ}
    (h : operation.Outcome m reply next) (hreset : operation ≠ .reset) {picture : Frame}
    (hcurrent : Current m picture) : Current next (repaint picture reply) := by
  cases h with
  | stepped _ _ hstate | executed _ hstate =>
    rcases State.redraw_of_execute hstate with ⟨-, hraised⟩ | ⟨-, hframe, hredraw⟩
    · exact .inl hraised
    · exact hcurrent.imp hredraw.trans fun heq => heq.trans hframe.symm
  | reset => exact absurd rfl hreset
  | taken => exact .inr rfl
  | failed | loaded | pressed | released | written | kept => exact hcurrent

/-- The display is right just after a frame was asked for, handed out or not. -/
theorem Outcome.repaint_eq_frame {reply : Except Stop Reply} {next : Machine σ}
    (h : takeFrame.Outcome m reply next) {picture : Frame} (hcurrent : Current m picture) :
    repaint picture reply = next.state.frame := by
  cases h with
  | failed hfails => cases hfails
  | taken => rfl
  | kept hredraw =>
    rcases hcurrent with hraised | heq
    · rw [hredraw] at hraised
      cases hraised
    · exact heq

theorem current_after {history : List Operation} (hsp : m.state.sp.toNat ≤ 16)
    (hreset : reset ∉ history) {picture : Frame} (hcurrent : Current m picture) :
    Current (after m history) (mirror m picture history) := by
  induction history generalizing m picture with
  | nil => exact hcurrent
  | cons operation rest ih =>
    obtain ⟨hne, hrest⟩ := not_or.mp (mt List.mem_cons.mpr hreset)
    have hnext := (outcome_apply hsp operation).current (Ne.symm hne) hcurrent
    exact ih (sp_le_apply hsp operation) hrest hnext

theorem mirror_takeFrame {history : List Operation} (hsp : m.state.sp.toNat ≤ 16)
    (hreset : reset ∉ history) {picture : Frame} (hcurrent : Current m picture) :
    mirror m picture (history ++ [takeFrame]) =
      (after m (history ++ [takeFrame])).state.frame := by
  have hlast := outcome_apply (sp_le_after hsp history) takeFrame
  rw [mirror_append, after_append]
  exact hlast.repaint_eq_frame (current_after hsp hreset hcurrent)

/-- A display that starts dark shows the frame after every request for it that no
reset comes before. Behind the latest reset it does so as soon as a frame is handed
out, and until then the frame is dark while the display is as it was. -/
theorem mirror_stale_only_behind_reset (memory : Memory) (source : σ) (history : List Operation) :
    let m := Machine.ofMemory memory source
    let shown := mirror m Frame.dark (history ++ [takeFrame])
    let frame := (after m (history ++ [takeFrame])).state.frame
    (reset ∉ history → shown = frame) ∧
      ∀ before since, history = before ++ reset :: since → reset ∉ since →
        (HandsOut (replies (after m (before ++ [reset])) (since ++ [takeFrame])) →
          shown = frame) ∧
        (¬ HandsOut (replies (after m (before ++ [reset])) (since ++ [takeFrame])) →
          frame = Frame.dark ∧ shown = mirror m Frame.dark before) := by
  intro m shown frame
  have hsp : m.state.sp.toNat ≤ 16 := Nat.zero_le 16
  refine ⟨fun hreset => mirror_takeFrame hsp hreset (.inr rfl), ?_⟩
  rintro before since rfl hreset
  have hbegun : Current (after m (before ++ [reset])) Frame.dark := by
    rw [after_append]
    exact .inr rfl
  -- Had the display gone dark with the machine, it would be right.
  have hdark := mirror_takeFrame (sp_le_after hsp _) hreset hbegun
  have hsplit : (before ++ reset :: since) ++ [takeFrame] =
      (before ++ [reset]) ++ (since ++ [takeFrame]) := by simp
  have hshown : shown = mirror (after m (before ++ [reset])) (mirror m Frame.dark before)
      (since ++ [takeFrame]) := by
    rw [← mirror_reset m Frame.dark before, ← mirror_append, ← hsplit]
  have hframe : frame = mirror (after m (before ++ [reset])) Frame.dark (since ++ [takeFrame]) := by
    rw [hdark, ← after_append, ← hsplit]
  rw [hshown, hframe]
  refine ⟨fun hhanded => foldl_repaint_of_handsOut hhanded _ _, fun hnone => ?_⟩
  exact ⟨foldl_repaint_of_not_handsOut hnone _, foldl_repaint_of_not_handsOut hnone _⟩

/-- A lit pixel is handed out, and the machine is reset. -/
theorem mirror_stale_after_reset :
    let m := Machine.ofMemory (Memory.zero.store 0x200 [0x80]) (Progression.mk 0 0)
    let history := [execute 0xA200, execute 0xD001, takeFrame, reset, takeFrame]
    mirror m Frame.dark history ≠ (after m history).state.frame := by
  intro m history heq
  have hshown : (mirror m Frame.dark history).pixel 0 0 = 1 := by decide +kernel
  have hframe : (after m history).state.frame.pixel 0 0 = 0 := by decide +kernel
  rw [heq, hframe] at hshown
  cases hshown

end Operation

end ChipEight
