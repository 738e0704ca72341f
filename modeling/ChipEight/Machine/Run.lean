import ChipEight.Machine.Routine

/-! Stepping a machine up to a limit or until its first fault, with an observer
that keeps notes on every attempted step. -/

namespace ChipEight

/-- An attempted step. -/
structure Attempt (σ : Type) where
  /-- The number of steps that succeeded before it. -/
  number : Nat
  before : Machine σ
  result : Except Stop Cycle

/-- How a run ended. It reached its limit unless something stopped it. -/
structure Run (σ α : Type) where
  /-- The number of steps that were counted. Only one that succeeds is. -/
  cycles : Nat
  machine : Machine σ
  stop : Option Stop
  notes : α

/-- The fault that stopped a run. -/
def Run.fault {σ α : Type} (run : Run σ α) : Option Fault :=
  match run.stop with
  | some (.fault fault) => some fault
  | some .crash | none => none

namespace Machine

variable {σ α : Type} [RandomSource σ]

theorem toNat_add_of_lt {a b : UInt64} (h : a.toNat + b.toNat < UInt64.size) :
    (a + b).toNat = a.toNat + b.toNat :=
  (UInt64.toNat_add a b).trans (Nat.mod_eq_of_lt h)

/-- Goes on with a run behind `cycles` steps. Steps are counted with sixty-four bits,
and counting past them is a crash. -/
def loop (observe : α → Attempt σ → α) (limit : Option Nat) (cycles : UInt64) (notes : α)
    (m : Machine σ) : Run σ α :=
  if limit.all (cycles.toNat < ·) then
    let (result, next) := Action.exec Routine.step m
    let notes := observe notes { number := cycles.toNat, before := m, result }
    match result with
    | .error stop => { cycles := cycles.toNat, machine := next, stop := some stop, notes }
    | .ok _ =>
      if h : cycles.toNat + 1 < UInt64.size then
        loop observe limit (cycles + 1) notes next
      else { cycles := cycles.toNat, machine := next, stop := some .crash, notes }
  else { cycles := cycles.toNat, machine := m, stop := none, notes }
termination_by UInt64.size - cycles.toNat
decreasing_by
  have hnext : (cycles + 1).toNat = cycles.toNat + 1 := toNat_add_of_lt h
  omega

section

variable {observe : α → Attempt σ → α} {limit : Option Nat} {cycles : UInt64} {notes : α}
  {m next : Machine σ}

theorem loop_at_limit (h : limit = some cycles.toNat) :
    loop observe limit cycles notes m =
      { cycles := cycles.toNat, machine := m, stop := none, notes } := by
  rw [loop, if_neg (by simp [h])]

theorem loop_of_error {stop : Stop} (hlimit : ∀ n ∈ limit, cycles.toNat < n)
    (h : Action.exec Routine.step m = (.error stop, next)) :
    loop observe limit cycles notes m =
      { cycles := cycles.toNat, machine := next, stop := some stop
        notes := observe notes
          { number := cycles.toNat, before := m, result := .error stop } } := by
  rw [loop, if_pos (by simpa [Option.all_eq_true] using hlimit), h]

theorem loop_of_ok {cycle : Cycle} (hlimit : ∀ n ∈ limit, cycles.toNat < n)
    (hsize : cycles.toNat + 1 < UInt64.size)
    (h : Action.exec Routine.step m = (.ok cycle, next)) :
    loop observe limit cycles notes m =
      loop observe limit (cycles + 1)
        (observe notes { number := cycles.toNat, before := m, result := .ok cycle }) next := by
  rw [loop, if_pos (by simpa [Option.all_eq_true] using hlimit), h]
  exact dif_pos hsize

/-- The step behind the last one that can be counted. -/
theorem loop_of_uncounted {cycle : Cycle} (hlimit : ∀ n ∈ limit, cycles.toNat < n)
    (hsize : cycles.toNat + 1 = UInt64.size)
    (h : Action.exec Routine.step m = (.ok cycle, next)) :
    loop observe limit cycles notes m =
      { cycles := cycles.toNat, machine := next, stop := some .crash
        notes := observe notes { number := cycles.toNat, before := m, result := .ok cycle } } := by
  rw [loop, if_pos (by simpa [Option.all_eq_true] using hlimit), h]
  exact dif_neg (hsize ▸ Nat.lt_irrefl _)

/-- Whatever each observation keeps holds of the notes of a run. -/
theorem notes_loop {P : α → Prop} (hobserve : ∀ notes attempt, P notes → P (observe notes attempt))
    (hnotes : P notes) : P (loop observe limit cycles notes m).notes := by
  fun_induction loop observe limit cycles notes m with
  | case1 | case3 => exact hobserve _ _ hnotes
  | case2 =>
    rename_i ih
    exact ih (hobserve _ _ hnotes)
  | case4 => exact hnotes

/-- Whatever each step keeps, also one that fails, holds of the machine in the end. -/
theorem machine_loop {P : Machine σ → Prop}
    (hstep : ∀ {m result next}, Action.exec Routine.step m = (result, next) → P m → P next)
    (hm : P m) : P (loop observe limit cycles notes m).machine := by
  fun_induction loop observe limit cycles notes m with
  | case1 | case3 => exact hstep ‹Action.exec Routine.step _ = _› hm
  | case2 =>
    rename_i ih
    exact ih (hstep ‹Action.exec Routine.step _ = _› hm)
  | case4 => exact hm

end

/-- At most `limit` steps, the first numbered zero. -/
def run (observe : α → Attempt σ → α) (limit : Nat) (notes : α) (m : Machine σ) : Run σ α :=
  loop observe (some limit) 0 notes m

end Machine

end ChipEight
