import ChipEight.Proofs.Admission
import ChipEight.Proofs.FaultTable

/-! What the journal of a session tells of its steps. A step is traced before it is carried
out, as soon as its word is fetched and has an instruction; the last line is written behind
the last step, from the count of those that succeeded. The two agree: each step that succeeds
has one line, in order, and the step that fails has one unless it failed in being fetched or
decoded. -/

namespace ChipEight

namespace Machine

variable {σ : Type} {m : Machine σ} {s : Snapshot}

/-- The snapshot is of the step that begins at `m`: it shows the word at the program counter,
with its instruction, and the registers as they are before. -/
structure Traces (m : Machine σ) (s : Snapshot) : Prop where
  fetched : m.memory.readWord m.state.pc = .ok s.word
  decoded : Instruction.decode s.word = .ok s.instruction
  v_eq : s.v = m.state.v
  i_eq : s.i = m.state.i
  pc_eq : s.pc = m.state.pc

/-- A step that begins at `m` fails before it is carried out: at its fetch, or since its word
has no instruction. -/
def FetchFails (m : Machine σ) (fault : Fault) : Prop :=
  m.memory.readWord m.state.pc = .error fault ∨
    ∃ w, m.memory.readWord m.state.pc = .ok w ∧ Instruction.decode w = .error fault

theorem traced_of_decode {w : Word} {instruction : Instruction}
    (hfetch : m.memory.readWord m.state.pc = .ok w)
    (hdecode : Instruction.decode w = .ok instruction) :
    m.traced =
      some { word := w, instruction, v := m.state.v, i := m.state.i, pc := m.state.pc } := by
  simp only [traced, hfetch, hdecode]

theorem traces_of_traced (h : m.traced = some s) : m.Traces s := by
  unfold traced at h
  split at h
  · cases h
  · rename_i w hfetch
    split at h
    · cases h
    · rename_i instruction hdecode
      cases h
      exact ⟨hfetch, hdecode, rfl, rfl, rfl⟩

end Machine

namespace Operation

variable {σ : Type} [RandomSource σ] {m : Machine σ}

theorem isSome_traced_of_ok (hsp : m.state.sp.toNat ≤ 16) {reply : Reply}
    (h : (step.apply m).1 = .ok reply) : m.traced.isSome = true := by
  have hout := outcome_apply hsp step
  rw [h] at hout
  generalize (step.apply m).2 = next at hout
  cases hout with
  | stepped hfetch hdecode => rw [Machine.traced_of_decode hfetch hdecode, Option.isSome_some]

/-- A step that fails without a trace failed in being fetched or decoded. -/
theorem fetchFails_of_traced_eq_none (hsp : m.state.sp.toNat ≤ 16) {fault : Fault}
    (h : (step.apply m).1 = .error (.fault fault)) (hnone : m.traced = none) :
    m.FetchFails fault := by
  rcases (apply_step_eq_error_iff hsp).mp h with hfetch | ⟨w, hfetch, hexecute⟩
  · exact .inl hfetch
  · cases hdecode : Instruction.decode w with
    | ok instruction =>
      rw [Machine.traced_of_decode hfetch hdecode] at hnone
      cases hnone
    | error other =>
      rw [Machine.execute, hdecode] at hexecute
      cases hexecute
      exact .inr ⟨w, hfetch, hdecode⟩

end Operation

namespace Session

open Operation

variable {σ : Type} {m : Machine σ} {n k : Nat} {outcome : Option Fault} {fault : Fault}

theorem filter_eventsOfAttempt (a : Attempt σ) :
    (eventsOfAttempt true a).filter (fun e => e.level == .trace) =
      a.before.traced.toList.map .executing := by
  obtain ⟨number, before, result⟩ := a
  rw [eventsOfAttempt, Machine.eventsOfStep_eq]
  rcases result with stop | ⟨_ | _⟩ <;> simp [Event.level]

variable [RandomSource σ]

/-- What is traced of the first `n` attempts at a step. -/
def snapshots (m : Machine σ) (n : Nat) : List Snapshot :=
  (List.range n).filterMap fun j => (after m (steps j)).traced

theorem snapshots_succ (m : Machine σ) (n : Nat) :
    snapshots m (n + 1) = snapshots m n ++ (after m (steps n)).traced.toList := by
  rw [snapshots, List.range_succ, List.filterMap_append]
  cases h : (after m (steps n)).traced with
  | none => simp [snapshots, h]
  | some s => simp [snapshots, h]

/-- Each of the first `n` attempts is traced. -/
def AllTraced (m : Machine σ) (n : Nat) : Prop :=
  ∀ j < n, (after m (steps j)).traced.isSome = true

theorem allTraced_succ :
    AllTraced m (n + 1) ↔ AllTraced m n ∧ (after m (steps n)).traced.isSome = true :=
  Nat.forall_lt_succ_right

theorem allTraced_of_succeeds (hsp : m.state.sp.toNat ≤ 16) (h : Succeeds m (steps n)) :
    AllTraced m n := by
  induction n with
  | zero => exact nofun
  | succ n ih =>
    obtain ⟨hfirst, reply, hreply⟩ := succeeds_steps_succ.mp h
    exact allTraced_succ.mpr
      ⟨ih hfirst, isSome_traced_of_ok (sp_le_after hsp (steps n)) hreply⟩

theorem AllTraced.map_snapshots (h : AllTraced m n) :
    (snapshots m n).map some = (List.range n).map fun j => (after m (steps j)).traced := by
  induction n with
  | zero => rfl
  | succ n ih =>
    obtain ⟨hfirst, hlast⟩ := allTraced_succ.mp h
    obtain ⟨s, hs⟩ := Option.isSome_iff_exists.mp hlast
    rw [snapshots_succ, List.map_append, ih hfirst, List.range_succ, List.map_append, hs]
    simp [hs]

theorem AllTraced.length_snapshots (h : AllTraced m n) : (snapshots m n).length = n := by
  simpa using congrArg List.length h.map_snapshots

theorem AllTraced.traces {j : Nat} {s : Snapshot} (h : AllTraced m n)
    (hs : (snapshots m n)[j]? = some s) : (after m (steps j)).Traces s := by
  have hlt : j < n := by
    rw [← h.length_snapshots]
    exact (List.getElem?_eq_some_iff.mp hs).1
  have hj := congrArg (·[j]?) h.map_snapshots
  rw [List.getElem?_map, hs, List.getElem?_map, List.getElem?_range hlt] at hj
  exact Machine.traces_of_traced (Option.some.inj hj).symm

theorem AllTraced.getLast?_snapshots (h : AllTraced m (k + 1)) :
    ∃ s, (snapshots m (k + 1)).getLast? = some s ∧ (after m (steps k)).Traces s := by
  obtain ⟨s, hs⟩ := Option.isSome_iff_exists.mp (allTraced_succ.mp h).2
  refine ⟨s, ?_, Machine.traces_of_traced hs⟩
  rw [snapshots_succ, hs, Option.toList_some, List.getLast?_concat]

theorem filter_noted (m : Machine σ) (n : Nat) :
    (noted (noteAttempt true) #[] m n).toList.filter (fun e => e.level == .trace) =
      (snapshots m n).map .executing := by
  rw [toList_noted]
  induction n with
  | zero => rfl
  | succ n ih =>
    rw [List.range_succ, List.flatMap_append, List.flatMap_singleton, List.filter_append, ih,
      filter_eventsOfAttempt, snapshots_succ, List.map_append]
    rfl

/-- How many attempts are traced: all of them, or all but the last, whose failure is then one
of fetching or decoding. -/
theorem exists_allTraced_of_ends {limit : Option UInt64} (hsp : m.state.sp.toNat ≤ 16)
    (h : Ends m limit k outcome) :
    ∃ n, snapshots m (attempts k outcome) = snapshots m n ∧ AllTraced m n ∧
      match outcome with
      | none => n = k
      | some fault => (after m (steps k)).FetchFails fault ∧ n = k ∨ n = k + 1 := by
  cases h with
  | finished hlimit h => exact ⟨_, rfl, allTraced_of_succeeds hsp h, rfl⟩
  | stopped h =>
    have hall := allTraced_of_succeeds hsp h.1
    -- Only the attempt that fails can be without a trace, and it is the last.
    cases hlast : (after m (steps k)).traced with
    | none =>
      have hfails := fetchFails_of_traced_eq_none (sp_le_after hsp (steps k)) h.2 hlast
      refine ⟨k, ?_, hall, .inl ⟨hfails, rfl⟩⟩
      rw [attempts, snapshots_succ, hlast, Option.toList_none, List.append_nil]
    | some s =>
      exact ⟨k + 1, rfl, allTraced_succ.mpr ⟨hall, by rw [hlast, Option.isSome_some]⟩, .inr rfl⟩

/-- The journal of a session that comes to stepping and ends after `k` steps. Behind the two
lines of the load it traces each of these steps, in order, from the machine as it was before
the step; it traces one more if the step behind them fails and its word has an instruction.
The last line tells `k`, and at a fault the program counter at which the failing step began. -/
theorem journal_accounts_for_every_step {source : σ} {files : Files} {o : Options}
    {machine : Machine σ} {loads : List Event}
    (prepared : prepare source files o = (.ok machine, loads))
    (ends : Ends machine o.cycles k outcome) :
    let report := runWith source files true o
    let before := fun j => after machine (steps j)
    ∃ (size : Nat) (rest : List Event) (shown : List Snapshot),
      report.failure = outcome.map .stopped ∧ report.cycles = k ∧
      loads = [.loaded size, .opened o.rom size] ∧ report.events = loads ++ rest ∧
      rest.filter (fun e => e.level == .trace) = shown.map .executing ∧
      (∀ j s, shown[j]? = some s → (before j).Traces s) ∧
      match outcome with
      | none =>
        shown.length = k ∧
          rest.getLast?.map Event.message =
            some ("finished " ++ Numeral.decimal k ++ " cycles")
      | some fault =>
        ((before k).FetchFails fault ∧ shown.length = k ∨
          shown.length = k + 1 ∧ ∃ s, shown.getLast? = some s ∧ (before k).Traces s) ∧
          rest.getLast?.map Event.message =
            some ("stopped after " ++ Numeral.decimal k ++ " cycles at pc " ++
              Numeral.marked 3 (before k).state.pc.toNat) := by
  intro report before
  obtain ⟨image, hadmitted, rfl, rfl⟩ := admitted_of_prepare prepared
  obtain ⟨n, hshown, htraced, hcount⟩ := exists_allTraced_of_ends (sp_ready ..) ends
  have hreport : report = _ := runWith_of_ends hadmitted ends true
  have hlength := htraced.length_snapshots
  refine ⟨image.length, _, snapshots _ n, congrArg Report.failure hreport,
    congrArg Report.cycles hreport, rfl, congrArg Report.events hreport, ?_,
    fun j s hs => htraced.traces hs, ?_⟩
  · rw [List.filter_append, filter_noted, hshown]
    cases outcome <;> exact List.append_nil _
  · rw [List.getLast?_concat]
    cases outcome with
    | none => exact ⟨hlength.trans hcount, rfl⟩
    | some fault =>
      refine ⟨?_, rfl⟩
      rcases hcount with ⟨hfails, rfl⟩ | rfl
      · exact .inl ⟨hfails, hlength⟩
      · exact .inr ⟨hlength, htraced.getLast?_snapshots⟩

/-- A register is set, and the next word returns from no call: it has an instruction, so that
there are two lines of a trace for one step that succeeds. -/
theorem journal_accounts_for_every_step_return_without_call :
    let image : List UInt8 := [0x60, 0x01, 0x00, 0xEE]
    let files : Files := fun _ => .ok image
    let o : Options :=
      { rom := "pong", hz := 500, cycles := some 10, seed := none, keys := "", fastForward := true }
    let machine := ready (Progression.mk 0 0) image []
    let report := runWith (Progression.mk 0 0) files true o
    prepare (Progression.mk 0 0) files o = (.ok machine, [.loaded 4, .opened "pong" 4]) ∧
      Ends machine o.cycles 1 (some .stackEmpty) ∧
      report.failure = some (.stopped .stackEmpty) ∧ report.cycles = 1 ∧
      (report.events.filter (fun e => e.level == .trace)).length = 2 ∧
      report.events.getLast?.map Event.message = some "stopped after 1 cycles at pc 0x202" := by
  intro image files o machine report
  have hkeys : o.keys.toList = [] := by decide +kernel
  have hadmitted : Admitted files o image :=
    ⟨⟨by decide, rfl, by decide⟩, hkeys ▸ fun _ => nofun⟩
  have prepared : prepare (Progression.mk 0 0) files o = _ := prepare_of_admitted hadmitted
  rw [hkeys] at prepared
  have hreplies : replies machine (steps 1) = [.ok (.stepped false)] := by decide +kernel
  have hlimit : ∀ n ∈ o.cycles, 1 < n.toNat := by simp [o]
  have ends : Ends machine o.cycles 1 (some .stackEmpty) :=
    .stopped ⟨by simp [Succeeds, hreplies], by decide +kernel⟩ hlimit (UInt64.toNat_lt 1)
  have hdecodes : ¬ (after machine (steps 1)).FetchFails .stackEmpty := by
    have hfetch : (after machine (steps 1)).memory.readWord (after machine (steps 1)).state.pc =
        .ok 0x00EE := by decide +kernel
    rintro (h | ⟨w, h, hdecode⟩)
    · cases hfetch.symm.trans h
    · cases hfetch.symm.trans h
      cases hdecode
  obtain ⟨size, rest, shown, hfailure, hcycles, hloads, hevents, htraces, -, hcount, hlast⟩ :=
    journal_accounts_for_every_step prepared ends
  obtain ⟨hlength, -⟩ := hcount.resolve_left fun h => hdecodes h.1
  have htext : "stopped after " ++ Numeral.decimal 1 ++ " cycles at pc " ++
      Numeral.marked 3 (after machine (steps 1)).state.pc.toNat =
        "stopped after 1 cycles at pc 0x202" := by decide +kernel
  obtain ⟨e, he, hmessage⟩ := Option.map_eq_some_iff.mp hlast
  refine ⟨prepared, ends, hfailure, hcycles, ?_, ?_⟩
  · have hloaded : (loadLines o.rom image).filter (fun e => e.level == .trace) = [] := rfl
    rw [hevents, List.filter_append, hloaded, List.nil_append, htraces, List.length_map, hlength]
  · rw [hevents, List.getLast?_append, he]
    exact congrArg some (hmessage.trans htext)

end Session

end ChipEight
