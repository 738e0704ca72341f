import ChipEight.Proofs.Ending
import ChipEight.Proofs.FaithfulText
import ChipEight.Proofs.Outcome

/-! What a session checks before its first step. Four things can be wrong with what it is asked
to do; they are checked in a fixed order, the first that is wrong is reported, and nothing is
shown. Where nothing is wrong, the session is the stepping of a new machine over the program
with the keys of the text held down, and its last frame is shown however the stepping ends. -/

namespace ChipEight

namespace Keypad

/-- Every character stands for a key. -/
def Mapped (cs : List Char) : Prop := ∀ c ∈ cs, (key? c).isSome = true

/-- The statuses of the keys when those that a text names are pressed and the others are left
as they are. -/
def pressAll (cs : List Char) (keys : Vector UInt8 16) : Vector UInt8 16 :=
  Vector.ofFn fun key => if some key ∈ cs.map key? then 1 else keys.get key

variable {cs : List Char} {key : Fin 16}

theorem get_pressAll_of_mem (h : some key ∈ cs.map key?) (keys : Vector UInt8 16) :
    (pressAll cs keys).get key = 1 :=
  (Vector.getElem_ofFn key.isLt).trans (if_pos h)

theorem get_pressAll_of_not_mem (h : some key ∉ cs.map key?) (keys : Vector UInt8 16) :
    (pressAll cs keys).get key = keys.get key :=
  (Vector.getElem_ofFn key.isLt).trans (if_neg h)

theorem pressAll_nil (keys : Vector UInt8 16) : pressAll [] keys = keys :=
  Vector.ext fun _ _ => get_pressAll_of_not_mem List.not_mem_nil keys

theorem pressAll_cons {c : Char} (hkey : key? c = some key) (cs : List Char) (s : State) :
    pressAll (c :: cs) s.keys = pressAll cs (s.writeKey key 1).keys := by
  refine Vector.ext fun k hk => ?_
  show (pressAll (c :: cs) s.keys).get ⟨k, hk⟩ = (pressAll cs (s.writeKey key 1).keys).get ⟨k, hk⟩
  -- For a key that is named again later it makes no difference whether it was pressed before.
  by_cases hmem : some ⟨k, hk⟩ ∈ cs.map key?
  · rw [get_pressAll_of_mem hmem, get_pressAll_of_mem (List.mem_cons_of_mem _ hmem)]
  · rw [get_pressAll_of_not_mem hmem, State.get_keys_writeKey]
    by_cases hfirst : key = ⟨k, hk⟩
    · have hnamed : some ⟨k, hk⟩ ∈ (c :: cs).map key? := by
        rw [List.map_cons, hkey, hfirst]
        exact List.mem_cons_self
      rw [if_pos hfirst, get_pressAll_of_mem hnamed]
    · have hnot : some ⟨k, hk⟩ ∉ (c :: cs).map key? := by
        rw [List.map_cons, hkey, List.mem_cons, Option.some.injEq]
        exact not_or.mpr ⟨Ne.symm hfirst, hmem⟩
      rw [if_neg hfirst, get_pressAll_of_not_mem hnot]

theorem mapped_or_first_unmapped (cs : List Char) :
    Mapped cs ∨ ∃ before c rest, cs = before ++ c :: rest ∧ Mapped before ∧ key? c = none := by
  induction cs with
  | nil => exact .inl fun c hc => absurd hc List.not_mem_nil
  | cons c cs ih =>
    cases hkey : key? c with
    | none => exact .inr ⟨[], c, cs, rfl, fun b hb => absurd hb List.not_mem_nil, hkey⟩
    | some key =>
      have hfirst : (key? c).isSome = true := hkey ▸ rfl
      rcases ih with hall | ⟨before, d, rest, hsplit, hbefore, hd⟩
      · exact .inl (List.forall_mem_cons.mpr ⟨hfirst, hall⟩)
      · exact .inr ⟨c :: before, d, rest, hsplit ▸ rfl,
          List.forall_mem_cons.mpr ⟨hfirst, hbefore⟩, hd⟩

end Keypad

/-- The event tells that a program was read or loaded. -/
def Event.reportsLoad : Event → Bool
  | loaded _ | opened _ _ => true
  | reset | beep | executing _ | beepAt _ | stopped _ _ | finished _ => false

open Keypad (Mapped key?)

namespace Session

open Operation

variable {σ : Type} {m : Machine σ} {cs before : List Char}

/-- A key of the keypad is never refused. -/
theorem hold_cons {c : Char} {key : Fin 16} (h : key? c = some key) :
    hold m (c :: cs) = hold (m.writeKey key 1) cs := by
  have hkey : (UInt8.ofNat key.val).toNat = key.val :=
    UInt8.toNat_ofNat_of_lt (Nat.lt_trans key.isLt (by decide))
  rw [hold, h]
  dsimp only
  rw [Machine.press, Machine.setKey_eq_writeKey hkey]

theorem hold_of_mapped (h : Mapped cs) :
    hold m cs =
      .ok { m with state := { m.state with keys := Keypad.pressAll cs m.state.keys } } := by
  induction cs generalizing m with
  | nil => rw [hold, Keypad.pressAll_nil]
  | cons c cs ih =>
    obtain ⟨hc, hcs⟩ := List.forall_mem_cons.mp h
    obtain ⟨key, hkey⟩ := Option.isSome_iff_exists.mp hc
    rw [hold_cons hkey, ih hcs, Keypad.pressAll_cons hkey]
    rfl

theorem hold_of_unmapped {c : Char} {rest : List Char} (h : Mapped before) (hc : key? c = none) :
    hold m (before ++ c :: rest) = .error (.unmappedKey c) := by
  induction before generalizing m with
  | nil => rw [List.nil_append, hold, hc]
  | cons b before ih =>
    obtain ⟨hb, hbefore⟩ := List.forall_mem_cons.mp h
    obtain ⟨key, hkey⟩ := Option.isSome_iff_exists.mp hb
    rw [List.cons_append, hold_cons hkey, ih hbefore]

/-! ## The checks -/

/-- Files by name, with what comes of reading each. -/
abbrev Files := String → Except ReadFailure (List UInt8)

variable {files : Files} {o : Options} {image : List UInt8} {failure : Failure}
  {events : List Event} {source : σ}

/-- The program file was read, and the program fits into memory. -/
structure Fitted (files : Files) (o : Options) (image : List UInt8) : Prop where
  hz_ne : o.hz ≠ 0
  read : files o.rom = .ok image
  fits : image.length ≤ 3584

/-- The lines that report a program which was read and fits. -/
def loadLines (rom : String) (image : List UInt8) : List Event :=
  [.loaded image.length, .opened rom image.length]

/-- The check that a session does not pass, those before it being passed: its failure, and what
is in the journal by then. -/
inductive Refused (files : Files) (o : Options) : Failure → List Event → Prop where
  | zeroHz (hhz : o.hz = 0) : Refused files o .zeroHz []
  | unreadable {reason : ReadFailure} (hhz : o.hz ≠ 0) (hread : files o.rom = .error reason) :
      Refused files o (.unreadable o.rom reason) []
  | tooLarge {image : List UInt8} (hhz : o.hz ≠ 0) (hread : files o.rom = .ok image)
      (hsize : 3584 < image.length) :
      Refused files o (.unloadable o.rom (.programTooLarge image.length 3584)) []
  | unmapped {image : List UInt8} {before rest : List Char} {c : Char}
      (h : Fitted files o image) (hkeys : o.keys.toList = before ++ c :: rest)
      (hbefore : Mapped before) (hc : key? c = none) :
      Refused files o (.unmappedKey c) (loadLines o.rom image)

theorem Fitted.unique {image' : List UInt8} (h : Fitted files o image)
    (h' : Fitted files o image') : image' = image := by
  have hread := h.read.symm.trans h'.read
  cases hread
  rfl

/-- By the time a check is not passed, the program is reported if it was read and fits. -/
theorem Refused.mem_events_iff {e : Event} (h : Refused files o failure events) :
    e ∈ events ↔ ∃ image, Fitted files o image ∧ e ∈ loadLines o.rom image := by
  cases h with
  | zeroHz hhz => exact ⟨nofun, fun ⟨_, h, _⟩ => absurd hhz h.hz_ne⟩
  | unreadable hhz hread =>
    refine ⟨nofun, fun ⟨_, h, _⟩ => ?_⟩
    cases hread.symm.trans h.read
  | tooLarge hhz hread hsize =>
    refine ⟨nofun, fun ⟨_, h, _⟩ => ?_⟩
    cases hread.symm.trans h.read
    exact absurd h.fits (Nat.not_le_of_lt hsize)
  | unmapped h hkeys hbefore hc =>
    refine ⟨fun he => ⟨_, h, he⟩, ?_⟩
    rintro ⟨image', h', he⟩
    rwa [h.unique h'] at he

/-- All checks are passed. -/
structure Admitted (files : Files) (o : Options) (image : List UInt8) : Prop
    extends Fitted files o image where
  mapped : Mapped o.keys.toList

theorem refused_or_admitted (files : Files) (o : Options) :
    (∃ failure events, Refused files o failure events) ∨ ∃ image, Admitted files o image := by
  by_cases hhz : o.hz = 0
  · exact .inl ⟨_, _, .zeroHz hhz⟩
  · cases hread : files o.rom with
    | error reason => exact .inl ⟨_, _, .unreadable hhz hread⟩
    | ok image =>
      by_cases hsize : image.length ≤ 3584
      · rcases Keypad.mapped_or_first_unmapped o.keys.toList with
          hmapped | ⟨before, c, rest, hkeys, hbefore, hc⟩
        · exact .inr ⟨image, ⟨hhz, hread, hsize⟩, hmapped⟩
        · exact .inl ⟨_, _, .unmapped ⟨hhz, hread, hsize⟩ hkeys hbefore hc⟩
      · exact .inl ⟨_, _, .tooLarge hhz hread (Nat.lt_of_not_le hsize)⟩

/-- A new machine over a program, with the keys of a text held down. -/
def ready (source : σ) (image : List UInt8) (cs : List Char) : Machine σ where
  memory := Memory.zero.store 0x200 image
  state := { State.initial with keys := Keypad.pressAll cs State.initial.keys }
  source

theorem prepare_of_fitted (h : Fitted files o image) :
    prepare source files o = (hold (Machine.ofMemory (Memory.zero.store 0x200 image) source)
      o.keys.toList, loadLines o.rom image) := by
  have hload : Memory.zero.load image = .ok (Memory.zero.store 0x200 image) := if_pos h.fits
  simp only [prepare, if_neg h.hz_ne, h.read, hload, loadLines]

theorem prepare_of_admitted (h : Admitted files o image) :
    prepare source files o =
      (.ok (ready source image o.keys.toList), loadLines o.rom image) := by
  rw [prepare_of_fitted h.toFitted, hold_of_mapped h.mapped]
  rfl

theorem prepare_of_refused (h : Refused files o failure events) :
    prepare source files o = (.error failure, events) := by
  cases h with
  | zeroHz hhz => simp only [prepare, if_pos hhz]
  | unreadable hhz hread => simp only [prepare, if_neg hhz, hread]
  | tooLarge hhz hread hsize =>
    have hload : Memory.zero.load _ = _ := if_neg (Nat.not_le_of_lt hsize)
    simp only [prepare, if_neg hhz, hread, hload]
    rfl
  | unmapped h hkeys hbefore hc => rw [prepare_of_fitted h, hkeys, hold_of_unmapped hbefore hc]

/-- A session that comes to stepping has passed all checks. -/
theorem admitted_of_prepare {machine : Machine σ}
    (h : prepare source files o = (.ok machine, events)) :
    ∃ image, Admitted files o image ∧ machine = ready source image o.keys.toList ∧
      events = loadLines o.rom image := by
  rcases refused_or_admitted files o with ⟨failure, _, hrefused⟩ | ⟨image, hadmitted⟩
  · rw [prepare_of_refused hrefused] at h
    cases h
  · rw [prepare_of_admitted hadmitted] at h
    cases h
    exact ⟨image, hadmitted, rfl, rfl⟩

/-! ## The report -/

theorem reportsLoad_eq_false_of_mem_eventsOfAttempt {tracing : Bool} {a : Attempt σ} {e : Event}
    (h : e ∈ eventsOfAttempt tracing a) : e.reportsLoad = false := by
  rw [eventsOfAttempt, Machine.eventsOfStep_eq, List.mem_append, List.mem_filter,
    List.mem_append] at h
  obtain ⟨number, before, result⟩ := a
  rcases h with ⟨h | h, -⟩ | h
  · obtain ⟨snapshot, -, rfl⟩ := List.mem_map.mp h
    rfl
  all_goals
    rcases result with stop | ⟨_ | _⟩
    · cases h
    · cases h
    · rw [List.mem_singleton.mp h]
      rfl

theorem sp_ready (source : σ) (image : List UInt8) (cs : List Char) :
    (ready source image cs).state.sp.toNat ≤ 16 := Nat.zero_le 16

variable [RandomSource σ]

theorem reportsLoad_eq_false_of_mem_notes {tracing : Bool} {limit : Option UInt64} {m : Machine σ}
    {e : Event} (h : e ∈ (drive tracing limit m).notes) : e.reportsLoad = false := by
  have hloop : ∀ e ∈ (m.loop (noteAttempt tracing) (limit.map UInt64.toNat) 0 #[]).notes.toList,
      e.reportsLoad = false := by
    refine Machine.notes_loop
      (P := fun notes : Array Event => ∀ e ∈ notes.toList, e.reportsLoad = false) ?_ ?_
    · intro notes a hnotes e he
      rw [toList_noteAttempt, List.mem_append] at he
      exact he.elim (hnotes e) reportsLoad_eq_false_of_mem_eventsOfAttempt
    · exact fun e he => absurd he List.not_mem_nil
  rcases List.mem_append.mp h with h | h
  · exact hloop e h
  · unfold ending at h
    split at h
    · rw [List.mem_singleton.mp h]
      rfl
    · rw [List.mem_singleton.mp h]
      rfl
    · exact absurd h List.not_mem_nil

theorem runWith_of_admitted (h : Admitted files o image) (tracing : Bool) :
    let run := drive tracing o.cycles (ready source image o.keys.toList)
    runWith source files tracing o =
      { failure := run.fault.map .stopped
        cycles := run.cycles
        shown := if run.stop = some .crash then "" else run.machine.state.frame.text
        events := loadLines o.rom image ++ run.notes } := by
  rw [runWith, prepare_of_admitted h]

theorem runWith_of_refused (h : Refused files o failure events) (tracing : Bool) :
    runWith source files tracing o =
      { failure := some failure, cycles := 0, shown := "", events } := by
  rw [runWith, prepare_of_refused h]

theorem runWith_of_ends (h : Admitted files o image) {k : Nat} {outcome : Option Fault}
    (hends : Ends (ready source image o.keys.toList) o.cycles k outcome) (tracing : Bool) :
    let machine := ready source image o.keys.toList
    runWith source files tracing o =
      { failure := outcome.map .stopped
        cycles := k
        shown := (after machine (steps k)).state.frame.text
        events := loadLines o.rom image ++
          ((noted (noteAttempt tracing) #[] machine (attempts k outcome)).toList ++
            [lastEvent k (after machine (steps k)).state.pc outcome]) } := by
  intro machine
  rw [runWith_of_admitted h, drive_of_ends (sp_ready ..) hends]
  cases outcome <;> rfl

/-- Where all checks are passed, only a step can fail. -/
theorem faultsAfter_of_failure (h : Admitted files o image) {tracing : Bool}
    (hfails : (runWith source files tracing o).failure = some failure) :
    ∃ fault, failure = .stopped fault ∧
      FaultsAfter (ready source image o.keys.toList) (runWith source files tracing o).cycles
        fault := by
  rcases exists_ends_or_uncounted (sp_ready source image o.keys.toList) o.cycles with
    ⟨k, outcome, hends⟩ | ⟨hlimit, hall⟩
  · rw [runWith_of_ends h hends] at hfails ⊢
    cases hends with
    | finished => cases hfails
    | stopped hfaults =>
      cases hfails
      exact ⟨_, rfl, hfaults⟩
  · have hstop : (drive tracing none (ready source image o.keys.toList)).stop = some .crash :=
      stop_drive_of_uncounted hall
    rw [runWith_of_admitted h, hlimit] at hfails
    simp only [Run.fault, hstop, Option.map_none] at hfails
    cases hfails

/-- A session checks the steps per second, the program file, its size and the keys, in this
order. The first check that is not passed is its failure, with nothing shown; where all are
passed, it comes to the steps of a new machine over the program with the named keys held down,
and the frame is shown at the limit as it is at a fault, pixel by pixel. So a fault of the
machine is one of its steps, never of a key that was pressed before them. The program is
reported exactly when it was read and fits, also if a key is then refused. -/
theorem checks_come_in_order (source : σ) (files : Files) (tracing : Bool) (o : Options) :
    let report := runWith source files tracing o
    ((∃ failure events, Refused files o failure events) ∨ ∃ image, Admitted files o image) ∧
      (∀ failure events, Refused files o failure events →
        report = { failure := some failure, cycles := 0, shown := "", events }) ∧
      (∀ failure, (∀ fault, failure ≠ .stopped fault) →
        (report.failure = some failure ↔ ∃ events, Refused files o failure events)) ∧
      (∀ image, Admitted files o image →
        let machine := ready source image o.keys.toList
        let run := drive tracing o.cycles machine
        prepare source files o = (.ok machine, loadLines o.rom image) ∧
        report.failure = run.fault.map .stopped ∧ report.cycles = run.cycles ∧
        report.events = loadLines o.rom image ++ run.notes ∧
        ∀ k outcome, Ends machine o.cycles k outcome →
          report.failure = outcome.map .stopped ∧ report.cycles = k ∧
          report.shown = (after machine (steps k)).state.frame.text ∧
          Frame.Depicts report.shown (after machine (steps k)).state.frame) ∧
      (∀ fault, report.failure = some (.stopped fault) →
        ∃ image, Admitted files o image ∧
          FaultsAfter (ready source image o.keys.toList) report.cycles fault) ∧
      ∀ e : Event, e.reportsLoad = true →
        (e ∈ report.events ↔ ∃ image, Fitted files o image ∧ e ∈ loadLines o.rom image) := by
  intro report
  have hcases := refused_or_admitted files o
  have hrefused : ∀ failure events, Refused files o failure events → report = _ :=
    fun _ _ h => runWith_of_refused h tracing
  have hadmitted : ∀ image, Admitted files o image → report = _ :=
    fun _ h => runWith_of_admitted h tracing
  refine ⟨hcases, hrefused, fun failure hfailure => ⟨fun hfails => ?_, ?_⟩, fun image h => ?_,
    fun fault hfails => ?_, fun e he => ?_⟩
  · rcases hcases with ⟨other, events, h⟩ | ⟨image, h⟩
    · rw [hrefused _ _ h] at hfails
      cases hfails
      exact ⟨events, h⟩
    · obtain ⟨fault, hfault, -⟩ := faultsAfter_of_failure h hfails
      exact absurd hfault (hfailure fault)
  · rintro ⟨events, h⟩
    rw [hrefused _ _ h]
  · have hreport := hadmitted image h
    refine ⟨prepare_of_admitted h, ?_, ?_, ?_, fun k outcome hends => ?_⟩
    · rw [hreport]
    · rw [hreport]
    · rw [hreport]
    · have hended : report = _ := runWith_of_ends h hends tracing
      rw [hended]
      exact ⟨rfl, rfl, rfl, Frame.depicts_text _⟩
  · rcases hcases with ⟨other, events, h⟩ | ⟨image, h⟩
    · rw [hrefused _ _ h] at hfails
      cases hfails
      cases h
    · obtain ⟨_, hfault, hfaults⟩ := faultsAfter_of_failure h hfails
      cases hfault
      exact ⟨image, h, hfaults⟩
  · rcases hcases with ⟨failure, events, h⟩ | ⟨image, h⟩
    · rw [hrefused _ _ h]
      exact h.mem_events_iff
    · rw [hadmitted _ h, List.mem_append]
      refine ⟨fun hmem => ⟨image, h.toFitted, hmem.resolve_right fun hnote => ?_⟩, ?_⟩
      · rw [reportsLoad_eq_false_of_mem_notes hnote] at he
        cases he
      · rintro ⟨image', h', hmem⟩
        rw [h.toFitted.unique h'] at hmem
        exact .inl hmem

/-- Two keys are named that do not exist, and the program returns from no call: the first of
the keys is reported. With neither named, the return is, and the dark frame is shown. -/
theorem checks_come_in_order_two_wrong_keys :
    let files : Files := fun name => if name = "pong" then .ok [0x00, 0xEE] else .error .missing
    let o : Options :=
      { rom := "pong", hz := 500, cycles := some 10, seed := none, keys := "q5p"
        fastForward := true }
    let o' : Options := { o with keys := "q" }
    let refused := runWith (Progression.mk 0 0) files false o
    let run := runWith (Progression.mk 0 0) files false o'
    Refused files o (.unmappedKey '5') (loadLines "pong" [0x00, 0xEE]) ∧
      refused.failure = some (.unmappedKey '5') ∧ refused.shown = "" ∧
      refused.events = [.loaded 2, .opened "pong" 2] ∧
      Admitted files o' [0x00, 0xEE] ∧
      run.failure = some (.stopped .stackEmpty) ∧ run.cycles = 0 ∧
      run.shown = Frame.dark.text ∧ Frame.Depicts run.shown Frame.dark ∧
      Event.loaded 2 ∈ run.events := by
  intro files o o' refused run
  have hhz : o.hz ≠ 0 := by decide
  have hsize : ([0x00, 0xEE] : List UInt8).length ≤ 3584 := by decide
  have hfitted : ∀ keys, Fitted files { o with keys } [0x00, 0xEE] := fun keys => ⟨hhz, rfl, hsize⟩
  have hkeys : o.keys.toList = ['q'] ++ '5' :: ['p'] := by decide +kernel
  have hkeys' : o'.keys.toList = ['q'] := by decide +kernel
  have hq : Mapped ['q'] := by simp [Mapped, key?]
  have hrefused : Refused files o (.unmappedKey '5') (loadLines "pong" [0x00, 0xEE]) :=
    .unmapped (hfitted "q5p") hkeys hq (by decide)
  have hadmitted : Admitted files o' [0x00, 0xEE] := ⟨hfitted "q", hkeys' ▸ hq⟩
  have hends : Ends (ready (Progression.mk 0 0) [0x00, 0xEE] o'.keys.toList) o'.cycles 0
      (some .stackEmpty) := by
    have hlimit : ∀ n ∈ o'.cycles, 0 < n.toNat := by simp [o', o]
    refine .stopped ⟨by simp [Succeeds, steps, replies], ?_⟩ hlimit (UInt64.toNat_lt 0)
    rw [hkeys']
    decide +kernel
  obtain ⟨-, hreport, -⟩ := checks_come_in_order (Progression.mk 0 0) files false o
  obtain ⟨-, -, -, hrun, -, hloads⟩ := checks_come_in_order (Progression.mk 0 0) files false o'
  obtain ⟨-, -, -, -, hended⟩ := hrun _ hadmitted
  obtain ⟨hfailure, hcycles, hshown, hpicture⟩ := hended _ _ hends
  have hrefusal := hreport _ _ hrefused
  refine ⟨hrefused, congrArg Report.failure hrefusal, congrArg Report.shown hrefusal,
    congrArg Report.events hrefusal, hadmitted, hfailure, hcycles, hshown.trans ?_, hpicture,
    (hloads _ rfl).mpr ⟨_, hadmitted.toFitted, List.mem_cons_self⟩⟩
  rfl

end Session

end ChipEight
