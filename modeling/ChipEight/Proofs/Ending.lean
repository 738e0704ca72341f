import ChipEight.Proofs.Drive

/-! How the stepping of a session ends: at its limit, or with the fault of a step. A run that
has no limit and meets no fault would go on until its steps cannot be counted any more. In
each case the machine, the last line of the journal and the lines before it, one attempt
after another, are known. -/

namespace ChipEight

namespace Machine

open Operation

/-- What a step of `m` traces: the word that it fetches, if that has an instruction, and the
registers as they are before. -/
def traced {σ : Type} (m : Machine σ) : Option Snapshot :=
  match m.memory.readWord m.state.pc with
  | .error _ => none
  | .ok word =>
    match Instruction.decode word with
    | .error _ => none
    | .ok instruction =>
      some { word, instruction, v := m.state.v, i := m.state.i, pc := m.state.pc }

theorem eventsOfStep_eq {σ ε : Type} (m : Machine σ) (result : Except ε Cycle) :
    m.eventsOfStep result = m.traced.toList.map .executing ++
      match result with
      | .ok cycle => if cycle.beep then [.beep] else []
      | .error _ => [] := by
  unfold eventsOfStep traced eventsOfExecute
  cases m.memory.readWord m.state.pc with
  | error fault => cases result <;> rfl
  | ok word =>
    dsimp only
    cases Instruction.decode word <;> cases result <;> rfl

variable {σ α : Type} [RandomSource σ] {m : Machine σ} {observe : α → Attempt σ → α} {notes : α}

/-- A run without a limit that meets no fault while its steps can be counted. -/
theorem loop_of_succeeds_uncounted (h : Succeeds m (steps UInt64.size)) :
    (loop observe none 0 notes m).stop = some .crash := by
  obtain ⟨n, hn⟩ : ∃ n, UInt64.size = n + 1 := ⟨_, rfl⟩
  rw [hn] at h
  obtain ⟨hfirst, reply, hreply⟩ := succeeds_steps_succ.mp h
  obtain ⟨cycle, hexec⟩ := exec_step_of_ok hreply
  have hcount : (UInt64.ofNat n).toNat = n := UInt64.toNat_ofNat_of_lt (by omega)
  rw [loop_of_succeeds hfirst (by simp) (by omega),
    loop_of_uncounted (by simp) (by rw [hcount, hn]) hexec]

end Machine

namespace Session

open Operation

variable {σ : Type} {m : Machine σ} {tracing : Bool} {limit : Option UInt64} {k : Nat}
  {outcome : Option Fault}

/-- The events of one attempt, those of the session behind those of the machine. -/
def eventsOfAttempt (tracing : Bool) (a : Attempt σ) : List Event :=
  (a.before.eventsOfStep a.result).filter (fun e => tracing || e.level != .trace) ++
    match a.result with
    | .ok cycle => if cycle.beep then [.beepAt a.number] else []
    | .error _ => []

theorem toList_noteAttempt (notes : Array Event) (a : Attempt σ) :
    (noteAttempt tracing notes a).toList = notes.toList ++ eventsOfAttempt tracing a := by
  obtain ⟨number, before, result⟩ := a
  rcases result with stop | ⟨_ | _⟩ <;> simp [noteAttempt, eventsOfAttempt]

variable [RandomSource σ]

/-- The stepping of a machine ends after so many steps: at the limit, or with the fault of the
step behind them. -/
inductive Ends (m : Machine σ) (limit : Option UInt64) : Nat → Option Fault → Prop where
  | finished {n : UInt64} (hlimit : limit = some n) (h : Succeeds m (steps n.toNat)) :
      Ends m limit n.toNat none
  | stopped {k : Nat} {fault : Fault} (h : FaultsAfter m k fault)
      (hlimit : ∀ n ∈ limit, k < n.toNat) (hsize : k < UInt64.size) :
      Ends m limit k (some fault)

theorem exists_ends_of_limit (hsp : m.state.sp.toNat ≤ 16) (n : UInt64) :
    ∃ k outcome, Ends m (some n) k outcome := by
  rcases succeeds_or_faultsAfter hsp n.toNat with h | ⟨k, fault, h, hk⟩
  · exact ⟨_, _, .finished rfl h⟩
  · exact ⟨_, _, .stopped h (by simpa using hk) (Nat.lt_trans hk n.toNat_lt)⟩

/-- Without a limit the steps may be too many to be counted. -/
theorem exists_ends_or_uncounted (hsp : m.state.sp.toNat ≤ 16) (limit : Option UInt64) :
    (∃ k outcome, Ends m limit k outcome) ∨ limit = none ∧ Succeeds m (steps UInt64.size) := by
  cases limit with
  | some n => exact .inl (exists_ends_of_limit hsp n)
  | none =>
    rcases succeeds_or_faultsAfter hsp UInt64.size with h | ⟨k, fault, h, hk⟩
    · exact .inr ⟨rfl, h⟩
    · exact .inl ⟨_, _, .stopped h (by simp) hk⟩

/-- The number of steps that are attempted when `k` of them succeed. -/
def attempts (k : Nat) : Option Fault → Nat
  | none => k
  | some _ => k + 1

/-- The last event of a run that ends after `k` steps with the program counter at `pc`. -/
def lastEvent (k : Nat) (pc : UInt16) : Option Fault → Event
  | none => .finished k
  | some _ => .stopped k pc

theorem drive_of_ends (hsp : m.state.sp.toNat ≤ 16) (h : Ends m limit k outcome) :
    drive tracing limit m =
      { cycles := k, machine := after m (steps k), stop := outcome.map .fault
        notes := (noted (noteAttempt tracing) #[] m (attempts k outcome)).toList ++
          [lastEvent k (after m (steps k)).state.pc outcome] } := by
  cases h with
  | finished hlimit h =>
    rw [hlimit]
    exact drive_of_succeeds h
  | stopped h hlimit hsize => exact drive_of_faultsAfter hsp h hlimit hsize

theorem stop_drive_of_uncounted (h : Succeeds m (steps UInt64.size)) :
    (drive tracing none m).stop = some .crash := by
  simp only [drive, Option.map_none, Machine.loop_of_succeeds_uncounted h]

theorem toList_noted (m : Machine σ) (n : Nat) :
    (noted (noteAttempt tracing) #[] m n).toList =
      (List.range n).flatMap fun k => eventsOfAttempt tracing (attempt m k) := by
  induction n with
  | zero => rfl
  | succ n ih =>
    rw [noted_succ, toList_noteAttempt, ih, List.range_succ, List.flatMap_append,
      List.flatMap_singleton]

end Session

end ChipEight
