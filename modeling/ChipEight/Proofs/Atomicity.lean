import ChipEight.Proofs.Agreement

/-! Operations are atomic: one that ends in a fault has changed nothing. It
follows that a machine whose step fails is stuck until something else is done to
it, since every further step meets the very same machine. -/

namespace ChipEight.Operation

variable {σ : Type} [RandomSource σ] {m : Machine σ}

theorem apply_of_error (hsp : m.state.sp.toNat ≤ 16) {operation : Operation} {fault : Fault}
    (h : (operation.apply m).1 = .error (.fault fault)) :
    operation.apply m = (.error (.fault fault), m) := by
  exact apply_of_result_error hsp ((apply_eq_error_iff hsp).mp h)

theorem replies_replicate {operation : Operation} {reply : Except Stop Reply}
    (h : operation.apply m = (reply, m)) (n : Nat) :
    replies m (List.replicate n operation) = List.replicate n reply := by
  induction n with
  | zero => rfl
  | succ n ih =>
    rw [List.replicate_succ, replies, h]
    exact congrArg (reply :: ·) ih

/-- A fault leaves the memory, the state and the random source as they were, and
a failed step fails again in the same way however often it is repeated. -/
theorem unchanged_of_fault (hsp : m.state.sp.toNat ≤ 16) {operation : Operation} {fault : Fault}
    (failed : (operation.apply m).1 = .error (.fault fault)) :
    (operation.apply m).2 = m ∧
      (operation = step →
        ∀ n, replies m (List.replicate n step) = List.replicate n (.error (.fault fault))) := by
  have happly := apply_of_error hsp failed
  constructor
  · rw [happly]
  · intro hstep n
    subst hstep
    exact replies_replicate happly n

/-- A machine about to draw a row of eight pixels at column 60. -/
def overhang : Machine Progression where
  memory := Memory.zero.store 0x200 [0xD0, 0x11, 0xFF]
  state := { State.initial with v := State.initial.v.setIfInBounds 0 60, i := 0x202 }
  source := { value := 0, increment := 0 }

theorem unchanged_of_fault_overhang :
    overhang.state.sp.toNat ≤ 16 ∧
      (step.apply overhang).1 = .error (.fault (.pixelOffScreen 64 0)) ∧
      (step.apply overhang).2 = overhang ∧
      ∀ n, replies overhang (List.replicate n step) =
        List.replicate n (.error (.fault (.pixelOffScreen 64 0))) := by
  have hsp : overhang.state.sp.toNat ≤ 16 := by decide
  have failed : (step.apply overhang).1 = .error (.fault (.pixelOffScreen 64 0)) := by
    decide +kernel
  obtain ⟨unchanged, again⟩ := unchanged_of_fault hsp failed
  exact ⟨hsp, failed, unchanged, again rfl⟩

end ChipEight.Operation
