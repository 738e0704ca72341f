import ChipEight.Proofs.FaultTable
import ChipEight.Proofs.WriteSet
import Mathlib.Data.List.Induction

/-! Which keys a program finds held down. No instruction writes the status of a key: it is what
the latest write from outside has stored, be that a press, a release or a raw byte, and a reset
clears it. Only 1 counts as held down. Both skips on a key look at the one status, so of the
two exactly one skips, and neither takes a key that does not exist for one that is released. -/

namespace ChipEight.Operation

/-- What an operation writes to a slot of the keys. A reset, which clears all of them, is not
counted here. -/
def stores (slot : Fin 16) : Operation → Option UInt8
  | press key => if key.toNat = slot.val then some 1 else none
  | release key => if key.toNat = slot.val then some 0 else none
  | writeKey key value => if key = slot then some value else none
  | step | execute _ | load _ | reset | takeFrame => none

/-- The slot was written since the latest reset, and the latest write stored `value`. -/
def LatestWrite (history : List Operation) (slot : Fin 16) (value : UInt8) : Prop :=
  ∃ before operation since, history = before ++ operation :: since ∧
    operation.stores slot = some value ∧ ∀ later ∈ since, later ≠ reset ∧ later.stores slot = none

/-- What an operation makes of a slot of the keys, a reset included. -/
def status (slot : Fin 16) (operation : Operation) : Option UInt8 :=
  if operation = reset then some 0 else operation.stores slot

variable {operation : Operation} {slot : Fin 16} {value : UInt8} {history : List Operation}

theorem status_eq_none_iff :
    operation.status slot = none ↔ operation ≠ reset ∧ operation.stores slot = none := by
  by_cases h : operation = reset <;> simp [status, h]

theorem status_eq_some_iff (hvalue : value ≠ 0) :
    operation.status slot = some value ↔ operation.stores slot = some value := by
  by_cases h : operation = reset
  · simp [status, h, stores, Ne.symm hvalue]
  · simp [status, h]

/-- A reset leaves 0 in every slot, so what is found behind it is a write if it is not 0. -/
theorem findSome?_status_eq_some_iff (hvalue : value ≠ 0) :
    history.reverse.findSome? (status slot) = some value ↔ LatestWrite history slot value := by
  rw [List.findSome?_eq_some_iff]
  constructor
  · rintro ⟨since, operation, before, hsplit, hstores, hsince⟩
    refine ⟨before.reverse, operation, since.reverse, ?_, (status_eq_some_iff hvalue).mp hstores,
      fun later hlater => status_eq_none_iff.mp (hsince later (List.mem_reverse.mp hlater))⟩
    rw [← List.reverse_reverse history, hsplit]
    simp
  · rintro ⟨before, operation, since, rfl, hstores, hsince⟩
    refine ⟨since.reverse, operation, before.reverse, by simp,
      (status_eq_some_iff hvalue).mpr hstores,
      fun later hlater => status_eq_none_iff.mpr (hsince later (List.mem_reverse.mp hlater))⟩

variable {σ : Type} [RandomSource σ] {m next : Machine σ} {reply : Except Stop Reply}

theorem keys_of_execute {memory : Memory} {roll : UInt8} {s t : State} {w : Word}
    {instruction : Instruction} (hdecode : Instruction.decode w = .ok instruction)
    (h : s.execute memory roll instruction = .ok t) : t.keys = s.keys := by
  obtain ⟨p, hp, rfl⟩ := Instruction.exists_fits_of_decode hdecode
  exact (State.same_or_writes hp h .keys).resolve_right nofun

/-- A key that exists is written without fail. -/
theorem result_of_stores (h : operation.stores slot = some value) (m : Machine σ) :
    operation.result m = .ok (.done, m.writeKey slot value) := by
  cases operation with
  | press key | release key =>
    obtain ⟨hkey, heq⟩ := Option.ite_none_right_eq_some.mp h
    cases heq
    simp only [result, Machine.press, Machine.release, Machine.setKey_eq_writeKey hkey]
    rfl
  | writeKey key other =>
    obtain ⟨hkey, heq⟩ := Option.ite_none_right_eq_some.mp h
    cases heq
    rw [hkey]
    rfl
  | step | execute | load | reset | takeFrame => cases h

theorem Outcome.key_eq (h : operation.Outcome m reply next) (slot : Fin 16) :
    next.state.keys.get slot = (operation.status slot).getD (m.state.keys.get slot) := by
  cases h with
  | failed hfails =>
    have hnone : operation.status slot = none := by
      rw [status_eq_none_iff]
      refine ⟨fun hreset => ?_, Option.eq_none_iff_forall_ne_some.mpr fun value hstores => ?_⟩
      · rw [hreset] at hfails
        cases hfails
      · rw [result_of_stores hstores] at hfails
        cases hfails
    rw [hnone, Option.getD_none]
  | stepped hfetch hdecode hstate | executed hdecode hstate =>
    simp only [Machine.behind, State.tick, keys_of_execute hdecode hstate]
    rfl
  | reset => exact State.get_keys_initial slot
  | pressed hkey | released hkey =>
    simp only [Machine.writeKey, State.get_keys_writeKey, status, stores, Fin.ext_iff]
    split <;> simp_all
  | written key value =>
    simp only [Machine.writeKey, State.get_keys_writeKey, status, stores]
    split <;> simp_all
  | loaded | taken | kept => rfl

theorem key_after (hsp : m.state.sp.toNat ≤ 16) (history : List Operation) (slot : Fin 16) :
    (after m history).state.keys.get slot =
      (history.reverse.findSome? (status slot)).getD (m.state.keys.get slot) := by
  -- By the last operation, which is the first that the search comes to.
  induction history using List.reverseRecOn with
  | nil => rfl
  | append_singleton history operation ih =>
    have hlast := outcome_apply (sp_le_after hsp history) operation
    rw [after_concat, hlast.key_eq slot, ih, List.reverse_concat, List.findSome?_cons]
    cases operation.status slot <;> rfl

/-- A key of a new machine is held down just if 1 was the latest that was written to it. -/
theorem held_iff_latestWrite (memory : Memory) (source : σ) (history : List Operation)
    (slot : Fin 16) :
    ((after (Machine.ofMemory memory source) history).state.keys.get slot == 1) = true ↔
      LatestWrite history slot 1 := by
  have hnew : (Machine.ofMemory memory source).state.sp.toNat ≤ 16 := Nat.zero_le 16
  have hclear : (Machine.ofMemory memory source).state.keys.get slot = 0 :=
    State.get_keys_initial slot
  rw [beq_iff_eq, key_after hnew, hclear, ← findSome?_status_eq_some_iff (by decide)]
  cases history.reverse.findSome? (status slot) <;> simp

theorem pressed_eq_ok {s : State} {key : UInt8} (h : key.toNat = slot.val) :
    s.pressed key = .ok (s.keys.get slot == 1) := by
  rw [State.pressed, dif_pos (by omega)]
  simp only [h]
  rfl

/-- A word that skips, or not, by whether the key in VX is held down. -/
theorem apply_key_skip (hsp : m.state.sp.toNat ≤ 16) {w : Word} {p : Pattern}
    (skips : Bool → Bool) (hw : w.Fits p) (hchance : (p.instruction w).usesChance = false)
    (hskips : ∀ memory roll (s : State), s.execute memory roll (p.instruction w) =
      (s.pressed (s.read w.x)).map fun held => s.skipIf (skips held)) :
    (execute w).apply m =
      match m.state.pressed (m.state.read w.x) with
      | .ok held => (.ok .done, { m with state := m.state.skipIf (skips held) })
      | .error fault => (.error (.fault fault), m) := by
  rw [apply_eq hsp]
  simp only [result, Machine.execute, Instruction.decode_of_fits hw, Machine.perform, hskips,
    hchance]
  cases m.state.pressed (m.state.read w.x) <;> rfl

/-- Both skips on the key in VX fail if there is no such key. Otherwise exactly one of them
skips, the other goes on to the next word, and neither changes anything else: the one on a key
held down skips, in any history of a new machine, just if since its latest reset the slot of the
key was written and the latest write stored 1. What is written to a slot never fails, and a
press or a release of a key that does not exist changes nothing. -/
theorem key_skips_follow_latest_write (memory : Memory) (source : σ) (history : List Operation)
    {w w' : Word} (hpressed : w.Fits .skipPressed) (hreleased : w'.Fits .skipReleased)
    (hx : w'.x = w.x) :
    let now := after (Machine.ofMemory memory source) history
    let key := now.state.read w.x
    (15 < key.toNat → (execute w).apply now = (.error (.fault (.noSuchKey key)), now) ∧
      (execute w').apply now = (.error (.fault (.noSuchKey key)), now)) ∧
    (∀ slot : Fin 16, key.toNat = slot.val → ∃ (held : Bool) (pc pc' : UInt16),
      (held = true ↔ LatestWrite history slot 1) ∧
      pc.toNat = (now.state.pc.toNat + if held then 4 else 2) % 65536 ∧
      pc'.toNat = (now.state.pc.toNat + if held then 2 else 4) % 65536 ∧
      (execute w).apply now = (.ok .done, { now with state := { now.state with pc } }) ∧
      (execute w').apply now = (.ok .done, { now with state := { now.state with pc := pc' } })) ∧
    (∀ (operation : Operation) slot value, operation.stores slot = some value →
      operation.apply now = (.ok .done, now.writeKey slot value)) ∧
    ∀ other : UInt8, 15 < other.toNat →
      (press other).apply now = (.error (.fault (.noSuchKey other)), now) ∧
      (release other).apply now = (.error (.fault (.noSuchKey other)), now) := by
  intro now key
  have hnew : (Machine.ofMemory memory source).state.sp.toNat ≤ 16 := Nat.zero_le 16
  have hsp : now.state.sp.toNat ≤ 16 := sp_le_after hnew history
  have hskip := apply_key_skip hsp id hpressed rfl fun _ _ _ => rfl
  have hskip' := apply_key_skip hsp not hreleased rfl fun _ _ _ => rfl
  rw [hx] at hskip'
  refine ⟨fun hkey => ?_, fun slot hslot => ?_, fun operation slot value hstores => ?_,
    fun other hother => ?_⟩
  · have hfails : now.state.pressed key = .error (.noSuchKey key) :=
      State.pressed_eq_error_iff.mpr ⟨hkey, rfl⟩
    rw [hskip, hskip', hfails]
    exact ⟨rfl, rfl⟩
  · have hlatest : (now.state.keys.get slot == 1) = true ↔ LatestWrite history slot 1 :=
      held_iff_latestWrite memory source history slot
    have hheld : now.state.pressed key = .ok (now.state.keys.get slot == 1) :=
      pressed_eq_ok hslot
    generalize (now.state.keys.get slot == 1) = held at hlatest hheld
    have hpc' : (now.state.skipIf !held).pc.toNat =
        (now.state.pc.toNat + if held then 2 else 4) % 65536 := by
      rw [State.toNat_pc_skipIf]
      cases held <;> rfl
    refine ⟨held, _, _, hlatest, State.toNat_pc_skipIf held, hpc', ?_, ?_⟩
    · rw [hskip, hheld]
      rfl
    · rw [hskip', hheld]
      rfl
  · exact apply_of_result_ok hsp (result_of_stores hstores now)
  · have hfails : ∀ value, now.setKey other value = .error (.noSuchKey other) :=
      fun value => dif_neg (by omega)
    constructor
    · exact apply_of_result_error hsp (congrArg (Except.map _) (hfails 1))
    · exact apply_of_result_error hsp (congrArg (Except.map _) (hfails 0))

/-- A raw byte other than 1 has released the key, and a press behind it holds it down again;
the write before the reset has no part in it. The word at 0x202 skips or does not. -/
theorem key_skips_follow_latest_write_press_behind_raw_byte :
    let history : List Operation :=
      [release 5, reset, writeKey 5 7, press 5, execute 0x6305, takeFrame]
    let now := after (Machine.ofMemory Memory.zero (Progression.mk 0 0)) history
    Word.Fits 0xE39E .skipPressed ∧ Word.Fits 0xE3A1 .skipReleased ∧
      Word.x 0xE3A1 = Word.x 0xE39E ∧ LatestWrite history 5 1 ∧
      now.state.pc = 0x202 ∧
      (execute 0xE39E).apply now =
        (.ok .done, { now with state := { now.state with pc := 0x206 } }) ∧
      (execute 0xE3A1).apply now =
        (.ok .done, { now with state := { now.state with pc := 0x204 } }) := by
  intro history now
  have hpressed : Word.Fits 0xE39E .skipPressed := ⟨rfl, trivial, rfl, rfl⟩
  have hreleased : Word.Fits 0xE3A1 .skipReleased := ⟨rfl, trivial, rfl, rfl⟩
  have hx : Word.x 0xE3A1 = Word.x 0xE39E := rfl
  have hlatest : LatestWrite history 5 1 :=
    ⟨[release 5, reset, writeKey 5 7], press 5, [execute 0x6305, takeFrame], rfl, rfl, by decide⟩
  have hslot : (now.state.read (Word.x 0xE39E)).toNat = (5 : Fin 16).val := by decide +kernel
  obtain ⟨-, hskips, -⟩ := key_skips_follow_latest_write Memory.zero (Progression.mk 0 0) history
    hpressed hreleased hx
  obtain ⟨held, pc, pc', hheld, hpc, hpc', hskip, hskip'⟩ := hskips 5 hslot
  have hnow : now.state.pc = 0x202 := by decide +kernel
  rw [hheld.mpr hlatest] at hpc hpc'
  obtain rfl : pc = 0x206 := UInt16.toNat_inj.mp (hpc.trans (by rw [hnow]; rfl))
  obtain rfl : pc' = 0x204 := UInt16.toNat_inj.mp (hpc'.trans (by rw [hnow]; rfl))
  exact ⟨hpressed, hreleased, hx, hlatest, hnow, hskip, hskip'⟩

end ChipEight.Operation
