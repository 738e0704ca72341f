import ChipEight.Proofs.Moves

/-! Calls and returns match. While a routine and all that it calls run, the
return addresses below them stay where they are; so the return that brings the
stack pointer back finds the address that the call left, and goes on behind the
call. -/

namespace ChipEight

namespace State

/-- The slots below `depth` hold the same return addresses. -/
def Keeps (depth : Nat) (s t : State) : Prop := ∀ k < depth, t.stack[k]? = s.stack[k]?

variable {s t u : State} {depth : Nat}

theorem Keeps.refl : Keeps depth s s := fun _ _ => rfl

theorem Keeps.trans (h : Keeps depth s t) (h' : Keeps depth t u) : Keeps depth s u :=
  fun k hk => (h' k hk).trans (h k hk)

theorem Keeps.mono {lower : Nat} (h : Keeps depth s t) (hle : lower ≤ depth) :
    Keeps lower s t := fun k hk => h k (by omega)

/-- Only a call writes the stack, and it writes the first slot not in use. -/
theorem Effect.keeps (h : s.Effect t) : Keeps s.sp.toNat s t := by
  intro k hk
  cases h with
  | called _ _ hstack _ =>
    rw [hstack]
    exact Vector.getElem?_setIfInBounds_ne (by omega)
  | neither _ hstack _ | returned _ _ hstack _ | cleared _ hstack _ | drawn _ _ hstack _ =>
    rw [hstack]

end State

namespace Operation

variable {σ : Type} [RandomSource σ] {m : Machine σ}

/-- While the stack pointer stays at `depth` or above, the slots below are kept. -/
theorem keeps_after {depth : Nat} {history : List Operation} (hsp : m.state.sp.toNat ≤ 16)
    (hreset : reset ∉ history)
    (above : ∀ part, part <+: history → depth ≤ (after m part).state.sp.toNat) :
    State.Keeps depth m.state (after m history).state := by
  induction history generalizing m with
  | nil => exact .refl
  | cons operation rest ih =>
    simp only [List.mem_cons, not_or] at hreset
    obtain ⟨hne, hrest⟩ := hreset
    have hdepth : depth ≤ m.state.sp.toNat := above [] List.nil_prefix
    have hfirst := (moves_apply hsp (Ne.symm hne)).effect.keeps.mono hdepth
    refine hfirst.trans (ih (sp_le_apply hsp operation) hrest fun part hpart => ?_)
    exact above (operation :: part) (List.cons_prefix_cons.mpr ⟨rfl, hpart⟩)

/-- The operation executes a call, fetched or not. -/
def Calls (m : Machine σ) : Operation → Prop
  | execute word => word.nibble 3 = 2
  | step => ∃ word, m.memory.readWord m.state.pc = .ok word ∧ word.nibble 3 = 2
  | _ => False

end Operation

theorem Instruction.decode_of_call {w : Word} (h : w.nibble 3 = 2) :
    decode w = .ok (.call w.target) := by
  simp [decode, h]

theorem Machine.execute_of_call {σ : Type} [RandomSource σ] {m : Machine σ} {w : Word}
    (hsp : m.state.sp.toNat ≤ 15) (h : w.nibble 3 = 2) :
    m.execute w = .ok { m with state := { m.state with
      stack := m.state.stack.setIfInBounds m.state.sp.toNat m.state.pc
      sp := m.state.sp + 1
      pc := w.target } } := by
  have hlt : m.state.sp.toNat < 16 := by omega
  simp only [execute, Instruction.decode_of_call h, perform, State.execute, State.push, if_pos hlt]
  rfl

namespace Operation

variable {σ : Type} [RandomSource σ] {m : Machine σ}

/-- A call takes one more slot, and leaves its own address there. -/
theorem apply_of_calls {call : Operation} (hsp : m.state.sp.toNat ≤ 15) (h : call.Calls m) :
    ∃ reply inside, call.apply m = (.ok reply, inside) ∧
      inside.state.sp.toNat = m.state.sp.toNat + 1 ∧
      inside.state.stack[m.state.sp.toNat]? = some m.state.pc := by
  have hsucc := State.toNat_add_one (show m.state.sp.toNat < 255 by omega)
  have hslot : (m.state.stack.setIfInBounds m.state.sp.toNat m.state.pc)[m.state.sp.toNat]? =
      some m.state.pc := Vector.getElem?_setIfInBounds_self_of_lt (by omega)
  cases call with
  | execute word =>
    have hexecute := Machine.execute_of_call hsp h
    exact ⟨_, _, apply_execute_of_ok (by omega) hexecute, hsucc, hslot⟩
  | step =>
    obtain ⟨word, hfetch, hword⟩ := h
    have hexecute := Machine.execute_of_call hsp hword
    exact ⟨_, _, apply_step_of_ok (by omega) hfetch hexecute, hsucc, hslot⟩
  | _ => exact h.elim

theorem apply_ret (hsp : m.state.sp.toNat ≤ 16) (hne : m.state.sp ≠ 0) :
    (execute 0x00EE).apply m = (.ok .done, { m with state := { m.state with
      sp := m.state.sp - 1
      pc := m.state.slot (m.state.sp - 1) + 2 } }) := by
  apply apply_execute_of_ok hsp
  have hdecode : Instruction.decode 0x00EE = .ok .ret := rfl
  simp only [Machine.execute, hdecode, Machine.perform, State.execute, State.pop,
    if_neg hne]
  rfl

/-- A call, whatever runs in the routine without leaving it, and the return from
it: the machine goes on behind the call with the stack as deep as before, and
every slot up to that of the call is as the call left it. -/
theorem return_matches_call {call : Operation} {history : List Operation}
    (hsp : m.state.sp.toNat ≤ 15) (hcall : call.Calls m) (hreset : reset ∉ history)
    (above : ∀ part, part <+: history →
      m.state.sp.toNat + 1 ≤ (after (call.apply m).2 part).state.sp.toNat)
    (level : (after (call.apply m).2 history).state.sp.toNat = m.state.sp.toNat + 1) :
    ∃ back, (execute 0x00EE).apply (after (call.apply m).2 history) = (.ok .done, back) ∧
      back.state.pc.toNat = (m.state.pc.toNat + 2) % 65536 ∧
      back.state.sp = m.state.sp ∧
      ∀ k ≤ m.state.sp.toNat, back.state.stack[k]? = (call.apply m).2.state.stack[k]? := by
  obtain ⟨reply, inside, happly, hinside, hslot⟩ := apply_of_calls hsp hcall
  rw [happly] at above level ⊢
  dsimp only at above level ⊢
  have hkeeps := keeps_after (by omega) hreset above
  generalize after inside history = outer at level hkeeps ⊢
  have hne : outer.state.sp ≠ 0 := by
    intro h
    rw [h] at level
    exact absurd level (by simp)
  have hpred : outer.state.sp - 1 = m.state.sp := by
    apply UInt8.toNat_inj.mp
    rw [State.toNat_sub_one hne, level]
    rfl
  refine ⟨_, apply_ret (by omega) hne, ?_, hpred, fun k hk => hkeeps k (by omega)⟩
  have hreturn : outer.state.slot (outer.state.sp - 1) = m.state.pc := by
    rw [hpred, State.slot, hkeeps _ (by omega), hslot]
    rfl
  dsimp only
  rw [hreturn, UInt16.toNat_add]
  rfl

/-- A routine that calls another, fails in it, and is returned to. -/
def nested : List Operation := [execute 0x2400, step, press 3, execute 0x00EE, takeFrame]

def fresh : Machine Progression := Machine.ofMemory Memory.zero { value := 0, increment := 0 }

theorem return_matches_call_nested :
    ∃ back, (execute 0x00EE).apply (after ((execute 0x2300).apply fresh).2 nested) =
        (.ok .done, back) ∧
      back.state.pc.toNat = 0x202 ∧ back.state.sp = 0 ∧
      ∀ k ≤ 0, back.state.stack[k]? = ((execute 0x2300).apply fresh).2.state.stack[k]? := by
  have hsp : fresh.state.sp.toNat ≤ 15 := by decide
  have hreset : reset ∉ nested := by decide
  have htake : ∀ n < 6, fresh.state.sp.toNat + 1 ≤
      (after ((execute 0x2300).apply fresh).2 (nested.take n)).state.sp.toNat := by
    decide +kernel
  have above : ∀ part, part <+: nested → fresh.state.sp.toNat + 1 ≤
      (after ((execute 0x2300).apply fresh).2 part).state.sp.toNat := by
    intro part hpart
    rw [List.prefix_iff_eq_take.mp hpart]
    exact htake _ (Nat.lt_succ_of_le hpart.length_le)
  have level : (after ((execute 0x2300).apply fresh).2 nested).state.sp.toNat =
      fresh.state.sp.toNat + 1 := by
    decide +kernel
  exact return_matches_call hsp rfl hreset above level

end Operation

end ChipEight
