import ChipEight.Proofs.Outcome

/-! What one operation can do to the state, said once. A property of states is
kept by every history as soon as it is kept by these moves and holds of the
initial state, which a reset brings back. -/

namespace ChipEight

namespace State

variable {s t : State}

theorem pop_eq_ok (h : s.pop = .ok t) :
    s.sp ≠ 0 ∧ t = { s with sp := s.sp - 1, pc := s.slot (s.sp - 1) + 2 } := by
  unfold pop at h
  split at h
  · cases h
  · rename_i hne
    cases h
    exact ⟨hne, rfl⟩

theorem push_eq_ok {target : UInt16} (h : s.push target = .ok t) :
    s.sp.toNat < 16 ∧ t = { s with
      stack := s.stack.setIfInBounds s.sp.toNat s.pc, sp := s.sp + 1, pc := target } := by
  unfold push at h
  split at h
  · rename_i hlt
    cases h
    exact ⟨hlt, rfl⟩
  · cases h

variable {memory : Memory} {roll : UInt8} {x y : Nat}

/-- The state behind a sprite that lights these positions. -/
def drawn (s : State) (lit : List Position) : State :=
  { s.write Register.flag (if lit.any s.frame.isLit then 1 else 0) with
    frame := lit.foldl Frame.toggle s.frame, redraw := true }.advance

theorem draw_eq_ok_iff {height : UInt8} :
    s.execute memory roll (.draw x y height) = .ok t ↔
      ∃ rows, memory.readBytes s.i height.toNat = .ok rows ∧
        (∀ p ∈ Sprite.positions rows (s.read x).toNat (s.read y).toNat, p.OnScreen) ∧
        t = s.drawn (Sprite.positions rows (s.read x).toNat (s.read y).toNat) := by
  simp only [execute]
  cases memory.readBytes s.i height.toNat with
  | error fault =>
    refine ⟨fun h => ?_, ?_⟩
    · cases h
    · rintro ⟨rows, hrows, -⟩
      cases hrows
  | ok rows =>
    refine ⟨fun h => ?_, ?_⟩
    · obtain ⟨drawing, hdraw, rfl⟩ := map_eq_ok h
      obtain ⟨hon, rfl⟩ := Frame.draw_eq_ok_iff.mp hdraw
      exact ⟨rows, rfl, hon, rfl⟩
    · rintro ⟨_, ⟨⟩, hon, rfl⟩
      simp only [draw, Frame.draw_eq_ok_iff.mpr ⟨hon, rfl⟩]
      rfl

theorem addIndex_eq_ok (h : s.execute memory roll (.addIndex x) = .ok t) :
    s.i.toNat + (s.read x).toNat < 65536 ∧
      t = { s with i := s.i + (s.read x).toUInt16 }.advance := by
  simp only [execute] at h
  split at h
  · rename_i hlt
    cases h
    exact ⟨hlt, rfl⟩
  · cases h

/-- What a move does to the stack and to the frame. It may do anything to the rest. -/
inductive Effect (s t : State) : Prop where
  | neither (hsp : t.sp = s.sp) (hstack : t.stack = s.stack) (hframe : t.frame = s.frame)
  | returned (hne : s.sp ≠ 0) (hsp : t.sp = s.sp - 1) (hstack : t.stack = s.stack)
      (hframe : t.frame = s.frame)
  | called (hlt : s.sp.toNat < 16) (hsp : t.sp = s.sp + 1)
      (hstack : t.stack = s.stack.setIfInBounds s.sp.toNat s.pc) (hframe : t.frame = s.frame)
  | cleared (hsp : t.sp = s.sp) (hstack : t.stack = s.stack) (hframe : t.frame = Frame.dark)
  | drawn (lit : List Position) (hsp : t.sp = s.sp) (hstack : t.stack = s.stack)
      (hframe : t.frame = lit.foldl Frame.toggle s.frame)

theorem effect_of_execute {instruction : Instruction}
    (h : s.execute memory roll instruction = .ok t) : s.Effect t := by
  cases instruction with
  | clear =>
    cases h
    exact .cleared rfl rfl rfl
  | ret =>
    obtain ⟨hne, rfl⟩ := pop_eq_ok h
    exact .returned hne rfl rfl rfl
  | call target =>
    obtain ⟨hlt, rfl⟩ := push_eq_ok h
    exact .called hlt rfl rfl rfl
  | draw x y height =>
    obtain ⟨rows, -, -, rfl⟩ := draw_eq_ok_iff.mp h
    exact .drawn _ rfl rfl rfl
  | skipPressed x | skipReleased x =>
    obtain ⟨held, -, rfl⟩ := map_eq_ok h
    exact .neither rfl rfl rfl
  | addIndex x =>
    obtain ⟨-, rfl⟩ := addIndex_eq_ok h
    exact .neither rfl rfl rfl
  -- The others write registers, the program counter or a timer.
  | _ =>
    cases h
    exact .neither rfl rfl rfl

/-- The timers are no part of an effect. -/
theorem Effect.tick (h : s.Effect t) : s.Effect t.tick := by
  cases h with
  | neither hsp hstack hframe => exact .neither hsp hstack hframe
  | returned hne hsp hstack hframe => exact .returned hne hsp hstack hframe
  | called hlt hsp hstack hframe => exact .called hlt hsp hstack hframe
  | cleared hsp hstack hframe => exact .cleared hsp hstack hframe
  | drawn lit hsp hstack hframe => exact .drawn lit hsp hstack hframe

theorem Effect.sp_le (h : s.Effect t) (hsp : s.sp.toNat ≤ 16) : t.sp.toNat ≤ 16 := by
  cases h with
  | returned hne heq =>
    have hpred := toNat_sub_one hne
    rw [heq]
    omega
  | called hlt heq =>
    have hsucc := toNat_add_one (show s.sp.toNat < 255 by omega)
    rw [heq]
    omega
  | neither heq | cleared heq | drawn _ heq =>
    rw [heq]
    exact hsp

/-- What an operation other than a reset can make of a state. -/
inductive Moves (memory : Memory) (s : State) : State → Prop where
  | stay : Moves memory s s
  | execute {roll : UInt8} {instruction : Instruction} {t : State}
      (h : s.execute memory roll instruction = .ok t) : Moves memory s t
  | step {roll : UInt8} {instruction : Instruction} {t : State}
      (h : s.execute memory roll instruction = .ok t) : Moves memory s t.tick
  | key (key : Fin 16) (value : UInt8) : Moves memory s (s.writeKey key value)
  | taken : Moves memory s { s with redraw := false }

theorem Moves.effect (h : s.Moves memory t) : s.Effect t := by
  cases h with
  | execute h => exact effect_of_execute h
  | step h => exact (effect_of_execute h).tick
  | stay | key | taken => exact .neither rfl rfl rfl

end State

namespace Operation

variable {σ : Type} [RandomSource σ] {m : Machine σ}

theorem Outcome.moves {operation : Operation} {reply : Except Stop Reply} {next : Machine σ}
    (h : operation.Outcome m reply next) (hreset : operation ≠ .reset) :
    m.state.Moves m.memory next.state := by
  cases h with
  | failed | loaded | kept => exact .stay
  | stepped _ _ hstate => exact .step hstate
  | executed _ hstate => exact .execute hstate
  | reset => exact absurd rfl hreset
  | pressed hkey | released hkey => exact .key _ _
  | written key value => exact .key key value
  | taken => exact .taken

theorem moves_apply (hsp : m.state.sp.toNat ≤ 16) {operation : Operation}
    (hreset : operation ≠ reset) : m.state.Moves m.memory (operation.apply m).2.state :=
  (outcome_apply hsp operation).moves hreset

theorem sp_le_apply (hsp : m.state.sp.toNat ≤ 16) (operation : Operation) :
    (operation.apply m).2.state.sp.toNat ≤ 16 := by
  by_cases hreset : operation = reset
  · subst hreset
    exact Nat.zero_le 16
  · exact (moves_apply hsp hreset).effect.sp_le hsp

theorem sp_le_after (hsp : m.state.sp.toNat ≤ 16) (history : List Operation) :
    (after m history).state.sp.toNat ≤ 16 := by
  induction history generalizing m with
  | nil => exact hsp
  | cons operation rest ih => exact ih (sp_le_apply hsp operation)

end Operation

end ChipEight
