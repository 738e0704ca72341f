import ChipEight.Host.Session
import ChipEight.Proofs.Atomicity
import ChipEight.Proofs.Moves

/-! The loop of a session against steps taken one after another. As long as steps
succeed, a run goes on as the machine does; its limit and the first fault are the two
places where it can end, whichever comes first. So what a run leaves is known from the
steps alone, and a limit that is not reached makes no difference. -/

namespace ChipEight

namespace Operation

/-- So many steps and nothing else. -/
def steps (n : Nat) : List Operation := List.replicate n step

variable {σ : Type} [RandomSource σ] {m : Machine σ} {k n : Nat} {fault : Fault}

theorem steps_add (a b : Nat) : steps (a + b) = steps a ++ steps b :=
  (List.replicate_append_replicate ..).symm

theorem steps_succ (n : Nat) : steps (n + 1) = steps n ++ [step] := List.replicate_succ'

theorem after_steps_succ (m : Machine σ) (n : Nat) :
    after m (steps (n + 1)) = (step.apply (after m (steps n))).2 := by
  rw [steps_succ, after_concat]

theorem replies_steps (m : Machine σ) (n : Nat) :
    replies m (steps n) = (List.range n).map fun k => (step.apply (after m (steps k))).1 := by
  induction n with
  | zero => rfl
  | succ n ih =>
    rw [steps_succ, replies_concat, ih, List.range_succ, List.map_append]
    rfl

theorem succeeds_steps_succ :
    Succeeds m (steps (n + 1)) ↔
      Succeeds m (steps n) ∧ ∃ reply, (step.apply (after m (steps n))).1 = .ok reply := by
  rw [steps_succ, succeeds_append, succeeds_cons]
  exact and_congr_right fun _ => and_iff_left nofun

/-- The first `k` steps succeed, and the next one fails. -/
def FaultsAfter (m : Machine σ) (k : Nat) (fault : Fault) : Prop :=
  Succeeds m (steps k) ∧ (step.apply (after m (steps k))).1 = .error (.fault fault)

theorem succeeds_or_faultsAfter (hsp : m.state.sp.toNat ≤ 16) (n : Nat) :
    Succeeds m (steps n) ∨ ∃ k fault, FaultsAfter m k fault ∧ k < n := by
  induction n with
  | zero => exact .inl nofun
  | succ n ih =>
    rcases ih with h | ⟨k, fault, h, hk⟩
    · cases hlast : (step.apply (after m (steps n))).1 with
      | ok reply => exact .inl (succeeds_steps_succ.mpr ⟨h, reply, hlast⟩)
      | error stop =>
        cases stop with
        | fault fault => exact .inr ⟨n, fault, ⟨h, hlast⟩, Nat.lt_succ_self n⟩
        | crash => exact absurd hlast (apply_ne_crash (sp_le_after hsp (steps n)) step)
    · exact .inr ⟨k, fault, h, Nat.lt_succ_of_lt hk⟩

/-- Exactly so many steps succeed as come before the first fault. -/
theorem FaultsAfter.succeeds_iff (h : FaultsAfter m k fault) : Succeeds m (steps n) ↔ n ≤ k := by
  refine ⟨fun hn => Nat.le_of_not_lt fun hlt => ?_, fun hle => ?_⟩
  · obtain ⟨d, rfl⟩ : ∃ d, n = (k + 1) + d := ⟨n - (k + 1), by omega⟩
    rw [steps_add, succeeds_append, succeeds_steps_succ] at hn
    obtain ⟨⟨-, reply, hreply⟩, -⟩ := hn
    rw [h.2] at hreply
    cases hreply
  · obtain ⟨d, rfl⟩ : ∃ d, k = n + d := ⟨k - n, by omega⟩
    have hall := h.1
    rw [steps_add, succeeds_append] at hall
    exact hall.1

theorem faultsAfter_add_iff {a b : Nat} (h : Succeeds m (steps a)) :
    FaultsAfter m (a + b) fault ↔ FaultsAfter (after m (steps a)) b fault := by
  rw [FaultsAfter, FaultsAfter, steps_add, succeeds_append, after_append, and_iff_right h]

/-- The attempt at a step behind `n` others. -/
def attempt (m : Machine σ) (n : Nat) : Attempt σ where
  number := n
  before := after m (steps n)
  result := (Action.exec Routine.step (after m (steps n))).1

/-- What is noted of the first `n` attempts. -/
def noted {α : Type} (observe : α → Attempt σ → α) (notes : α) (m : Machine σ) (n : Nat) : α :=
  ((List.range n).map (attempt m)).foldl observe notes

theorem noted_succ {α : Type} (observe : α → Attempt σ → α) (notes : α) (m : Machine σ) (n : Nat) :
    noted observe notes m (n + 1) = observe (noted observe notes m n) (attempt m n) := by
  rw [noted, List.range_succ, List.map_append, List.foldl_append]
  rfl

theorem apply_step (hsp : m.state.sp.toNat ≤ 16) :
    step.apply m = match m.step with
      | .ok (cycle, next) => (.ok (.stepped cycle.beep), next)
      | .error fault => (.error (.fault fault), m) := by
  cases hstep : m.step with
  | ok pair => exact apply_of_result_ok hsp (by rw [result, hstep]; rfl)
  | error fault => exact apply_of_result_error hsp (by rw [result, hstep]; rfl)

/-- A change of the machine that its first `n` steps take no notice of: they are answered as
they are without it, and behind each of them it makes the same difference. -/
def Unnoticed (change : Machine σ → Machine σ) (m : Machine σ) (n : Nat) : Prop :=
  ∀ k < n, step.apply (change (after m (steps k))) =
    ((step.apply (after m (steps k))).1, change (after m (steps (k + 1))))

theorem unnoticed_of_step {change : Machine σ → Machine σ} (hsp : m.state.sp.toNat ≤ 16)
    (hchange : ∀ m, (change m).state.sp = m.state.sp)
    (h : ∀ k < n, (change (after m (steps k))).step =
      (after m (steps k)).step.map fun pair => (pair.1, change pair.2)) :
    Unnoticed change m n := by
  intro k hk
  have hnow := sp_le_after hsp (steps k)
  have hchanged : (change (after m (steps k))).state.sp.toNat ≤ 16 := by rwa [hchange]
  rw [after_steps_succ, apply_step hnow, apply_step hchanged, h k hk]
  cases (after m (steps k)).step <;> rfl

theorem Unnoticed.after_steps {change : Machine σ → Machine σ} (h : Unnoticed change m n)
    (hk : k ≤ n) : after (change m) (steps k) = change (after m (steps k)) := by
  induction k with
  | zero => rfl
  | succ k ih => rw [after_steps_succ, ih (Nat.le_of_succ_le hk), h k hk]

theorem Unnoticed.replies_steps {change : Machine σ → Machine σ} (h : Unnoticed change m n) :
    replies (change m) (steps n) = replies m (steps n) := by
  rw [Operation.replies_steps, Operation.replies_steps]
  refine List.map_congr_left fun k hmem => ?_
  have hk := List.mem_range.mp hmem
  rw [h.after_steps (Nat.le_of_lt hk), h k hk]

/-- A step is answered as its routine is, and leaves the same machine. -/
theorem apply_step_eq_exec (m : Machine σ) :
    step.apply m = ((Action.exec Routine.step m).1.map fun cycle => .stepped cycle.beep,
      (Action.exec Routine.step m).2) := by
  simp only [apply, routine, Action.exec_bind]
  rcases Action.exec Routine.step m with ⟨stop | cycle, next⟩ <;> rfl

theorem exec_step_of_ok {reply : Reply} (h : (step.apply m).1 = .ok reply) :
    ∃ cycle, Action.exec Routine.step m = (.ok cycle, (step.apply m).2) := by
  rw [apply_step_eq_exec] at h ⊢
  generalize Action.exec Routine.step m = answered at h
  obtain ⟨stop | cycle, next⟩ := answered
  · cases h
  · exact ⟨cycle, rfl⟩

theorem exec_step_of_error {stop : Stop} (h : (step.apply m).1 = .error stop) :
    Action.exec Routine.step m = (.error stop, (step.apply m).2) := by
  rw [apply_step_eq_exec] at h ⊢
  generalize Action.exec Routine.step m = answered at h
  obtain ⟨other | cycle, next⟩ := answered
  · cases h
    rfl
  · cases h

end Operation

namespace Machine

open Operation

variable {σ α : Type} [RandomSource σ] {m : Machine σ} {observe : α → Attempt σ → α}
  {limit : Option Nat} {notes : α} {k n : Nat} {fault : Fault}

/-- As long as steps succeed and the limit is not reached, a run goes on as the
machine does. -/
theorem loop_of_succeeds (h : Succeeds m (steps n)) (hlimit : ∀ l ∈ limit, n ≤ l)
    (hsize : n < UInt64.size) :
    loop observe limit 0 notes m =
      loop observe limit (UInt64.ofNat n) (noted observe notes m n) (after m (steps n)) := by
  -- By the last step and not the first, so that the loop is always entered with zero.
  induction n with
  | zero => rfl
  | succ n ih =>
    obtain ⟨hfirst, reply, hreply⟩ := succeeds_steps_succ.mp h
    obtain ⟨cycle, hexec⟩ := exec_step_of_ok hreply
    have hcount : (UInt64.ofNat n).toNat = n := UInt64.toNat_ofNat_of_lt (by omega)
    have hnext : UInt64.ofNat (n + 1) = UInt64.ofNat n + 1 := UInt64.ofNat_add n 1
    have hbelow : ∀ l ∈ limit, (UInt64.ofNat n).toNat < l := by
      rw [hcount]
      exact hlimit
    rw [ih hfirst (fun l hl => Nat.le_of_succ_le (hlimit l hl)) (by omega),
      loop_of_ok hbelow (by rwa [hcount]) hexec, hnext, noted_succ, after_steps_succ, attempt,
      hexec, hcount]

/-- A run that reaches its limit. -/
theorem loop_of_succeeds_limit (h : Succeeds m (steps n)) (hsize : n < UInt64.size) :
    loop observe (some n) 0 notes m =
      { cycles := n, machine := after m (steps n), stop := none
        notes := noted observe notes m n } := by
  have hcount : (UInt64.ofNat n).toNat = n := UInt64.toNat_ofNat_of_lt hsize
  have hlimit : ∀ l ∈ some n, n ≤ l := by simp
  rw [loop_of_succeeds h hlimit hsize, loop_at_limit (congrArg some hcount.symm), hcount]

/-- A run that meets a fault on its way. -/
theorem loop_of_faultsAfter (hsp : m.state.sp.toNat ≤ 16) (h : FaultsAfter m k fault)
    (hlimit : ∀ l ∈ limit, k < l) (hsize : k < UInt64.size) :
    loop observe limit 0 notes m =
      { cycles := k, machine := after m (steps k), stop := some (.fault fault)
        notes := noted observe notes m (k + 1) } := by
  have hcount : (UInt64.ofNat k).toNat = k := UInt64.toNat_ofNat_of_lt hsize
  have hkept := congrArg Prod.snd (apply_of_error (sp_le_after hsp (steps k)) h.2)
  have hexec := exec_step_of_error h.2
  have hbelow : ∀ l ∈ limit, (UInt64.ofNat k).toNat < l := by
    rw [hcount]
    exact hlimit
  rw [loop_of_succeeds h.1 (fun l hl => Nat.le_of_lt (hlimit l hl)) hsize,
    loop_of_error hbelow hexec, noted_succ, attempt, hexec, hcount, hkept]

end Machine

namespace Session

open Operation

variable {σ : Type} [RandomSource σ] {m : Machine σ} {tracing : Bool} {fault : Fault}

theorem drive_of_succeeds {n : UInt64} (h : Succeeds m (steps n.toNat)) :
    drive tracing (some n) m =
      { cycles := n.toNat, machine := after m (steps n.toNat), stop := none
        notes := (noted (noteAttempt tracing) #[] m n.toNat).toList ++ [.finished n.toNat] } := by
  simp only [drive, Option.map_some, Machine.loop_of_succeeds_limit h n.toNat_lt, ending]

theorem drive_of_faultsAfter (hsp : m.state.sp.toNat ≤ 16) {limit : Option UInt64} {k : Nat}
    (h : FaultsAfter m k fault) (hlimit : ∀ n ∈ limit, k < n.toNat) (hsize : k < UInt64.size) :
    drive tracing limit m =
      { cycles := k, machine := after m (steps k), stop := some (.fault fault)
        notes := (noted (noteAttempt tracing) #[] m (k + 1)).toList ++
          [.stopped k (after m (steps k)).state.pc] } := by
  have hbelow : ∀ l ∈ limit.map UInt64.toNat, k < l := by
    simpa using hlimit
  simp only [drive, Machine.loop_of_faultsAfter hsp h hbelow hsize, ending]

/-- A run that finishes and is gone on with ends as a run under both limits together. -/
theorem drive_add_of_succeeds (hsp : m.state.sp.toNat ≤ 16) {n more : UInt64}
    (h : Succeeds m (steps n.toNat)) (hsize : n.toNat + more.toNat < UInt64.size) :
    let whole := drive tracing (some (n + more)) m
    let rest := drive tracing (some more) (after m (steps n.toNat))
    whole.machine = rest.machine ∧ whole.stop = rest.stop ∧
      whole.cycles = n.toNat + rest.cycles := by
  intro whole rest
  have hsum : (n + more).toNat = n.toNat + more.toNat := Machine.toNat_add_of_lt hsize
  have hsp' := sp_le_after hsp (steps n.toNat)
  rcases succeeds_or_faultsAfter hsp' more.toNat with
    hrest | ⟨k, fault, hrest, hk⟩
  · have hall : Succeeds m (steps (n + more).toNat) := by
      rw [hsum, steps_add]
      exact succeeds_append.mpr ⟨h, hrest⟩
    simp only [whole, rest, drive_of_succeeds hall, drive_of_succeeds hrest, hsum, steps_add,
      after_append, and_self]
  · have hall := (faultsAfter_add_iff h).mpr hrest
    have hlimit : ∀ l ∈ some (n + more), n.toNat + k < l.toNat := by simpa [hsum] using hk
    have hlimit' : ∀ l ∈ some more, k < l.toNat := by simpa using hk
    simp only [whole, rest, drive_of_faultsAfter hsp hall hlimit (by omega),
      drive_of_faultsAfter hsp' hrest hlimit' (by omega), steps_add, after_append, and_self]

/-- No limit behind the first fault makes a difference, nor does its absence. -/
theorem drive_eq_of_faultsAfter (hsp : m.state.sp.toNat ≤ 16) {n : UInt64} {k : Nat}
    (h : FaultsAfter m k fault) (hk : k < n.toNat) {limit : Option UInt64}
    (hlimit : ∀ l ∈ limit, k < l.toNat) : drive tracing limit m = drive tracing (some n) m := by
  have hsize := Nat.lt_trans hk n.toNat_lt
  have hn : ∀ l ∈ some n, k < l.toNat := by simpa using hk
  rw [drive_of_faultsAfter hsp h hlimit hsize, drive_of_faultsAfter hsp h hn hsize]

/-- The loop of a session is the step, iterated. It finishes if so many steps succeed,
and otherwise ends at the first that fails, with the machine and in the words that
belong to it; no limit is so large that the count of steps leaves its range. A limit may
be split, and one that is not reached makes no difference. -/
theorem drive_iterates_step (hsp : m.state.sp.toNat ≤ 16) (tracing : Bool) (n : UInt64) :
    let run := drive tracing (some n) m
    (Succeeds m (steps n.toNat) ∨ ∃ k fault, FaultsAfter m k fault ∧ k < n.toNat) ∧
      (∀ k fault, FaultsAfter m k fault → (Succeeds m (steps n.toNat) ↔ n.toNat ≤ k)) ∧
      (Succeeds m (steps n.toNat) →
        run.stop = none ∧ run.cycles = n.toNat ∧ run.machine = after m (steps n.toNat) ∧
        run.notes.getLast?.map Event.message =
          some ("finished " ++ Numeral.decimal n.toNat ++ " cycles")) ∧
      (∀ k fault, FaultsAfter m k fault → k < n.toNat →
        run.stop = some (.fault fault) ∧ run.cycles = k ∧ run.machine = after m (steps k) ∧
        run.notes.getLast?.map Event.message =
          some ("stopped after " ++ Numeral.decimal k ++ " cycles at pc " ++
            Numeral.marked 3 (after m (steps k)).state.pc.toNat) ∧
        ∀ limit : Option UInt64, (∀ l ∈ limit, k < l.toNat) → drive tracing limit m = run) ∧
      run.stop ≠ some .crash ∧
      ∀ more : UInt64, n.toNat + more.toNat < UInt64.size →
        let whole := drive tracing (some (n + more)) m
        let rest := drive tracing (some more) run.machine
        (run.stop = none → whole.machine = rest.machine ∧ whole.stop = rest.stop ∧
          whole.cycles = run.cycles + rest.cycles) ∧
        (run.stop ≠ none → whole = run) := by
  intro run
  have hcases := succeeds_or_faultsAfter hsp n.toNat
  have hfinished : Succeeds m (steps n.toNat) → run = _ := drive_of_succeeds
  have hstopped : ∀ k fault, FaultsAfter m k fault → k < n.toNat → run = _ :=
    fun k fault h hk => drive_of_faultsAfter hsp h (by simpa using hk) (Nat.lt_trans hk n.toNat_lt)
  refine ⟨hcases, fun k fault h => h.succeeds_iff, fun h => ?_, fun k fault h hk => ?_,
    fun hcrash => ?_, fun more hsize => ?_⟩
  · rw [hfinished h]
    exact ⟨rfl, rfl, rfl, congrArg (Option.map Event.message) List.getLast?_concat⟩
  · have hlimits : ∀ limit, (∀ l ∈ limit, k < l.toNat) → drive tracing limit m = run :=
      fun limit hlimit => drive_eq_of_faultsAfter hsp h hk hlimit
    refine ⟨?_, ?_, ?_, ?_, hlimits⟩ <;> rw [hstopped k fault h hk]
    exact congrArg (Option.map Event.message) List.getLast?_concat
  · rcases hcases with h | ⟨k, fault, h, hk⟩
    · rw [hfinished h] at hcrash
      cases hcrash
    · rw [hstopped k fault h hk] at hcrash
      cases hcrash
  -- A run that has stopped before the first limit does not see the second.
  · rcases hcases with h | ⟨k, fault, h, hk⟩
    · simpa [hfinished h] using drive_add_of_succeeds hsp h hsize
    · have hlimit : ∀ l ∈ some (n + more), k < l.toNat := by
        simp only [Option.mem_some_iff, forall_eq', Machine.toNat_add_of_lt hsize]
        omega
      have hwhole : drive tracing (some (n + more)) m = run :=
        drive_eq_of_faultsAfter hsp h hk hlimit
      have hstop : run.stop = some (.fault fault) := by rw [hstopped k fault h hk]
      exact ⟨fun hnone => by simp [hstop] at hnone, fun _ => hwhole⟩

/-- A register is set, and the next word is none. -/
theorem drive_iterates_step_unknown_word :
    let image : List UInt8 := [0x60, 0x01, 0xF1, 0x33]
    let m := Machine.ofMemory (Memory.zero.store 0x200 image) (Progression.mk 0 0)
    let run := drive false (some 10) m
    m.state.sp.toNat ≤ 16 ∧ FaultsAfter m 1 (.unknownWord 0xF133) ∧
      run.stop = some (.fault (.unknownWord 0xF133)) ∧ run.cycles = 1 ∧
      run.machine = after m [step] ∧
      run.notes.getLast?.map Event.message = some "stopped after 1 cycles at pc 0x202" ∧
      drive false none m = run ∧ drive false (some (10 + 5)) m = run := by
  intro image m run
  have hsp : m.state.sp.toNat ≤ 16 := by decide
  have hreplies : replies m (steps 1) = [.ok (.stepped false)] := by decide +kernel
  have hfaults : FaultsAfter m 1 (.unknownWord 0xF133) :=
    ⟨by simp [Succeeds, hreplies], by decide +kernel⟩
  obtain ⟨-, -, -, hstopped, -, hadd⟩ := drive_iterates_step hsp false 10
  obtain ⟨hstop, hcycles, hmachine, hlast, hlimits⟩ := hstopped 1 _ hfaults (by decide)
  have hne : run.stop ≠ none := by simp [run, hstop]
  have htext : "stopped after " ++ Numeral.decimal 1 ++ " cycles at pc " ++
      Numeral.marked 3 (after m (steps 1)).state.pc.toNat =
        "stopped after 1 cycles at pc 0x202" := by decide +kernel
  exact ⟨hsp, hfaults, hstop, hcycles, hmachine, hlast.trans (congrArg some htext),
    hlimits none (by simp), (hadd 5 (by decide)).2 hne⟩

end Session

end ChipEight
