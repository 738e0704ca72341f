import ChipEight.Proofs.Performed
import ChipEight.Proofs.WriteSet
import Mathlib.Data.List.Basic
import Mathlib.Data.List.Induction

/-! The timers count steps. Each step that succeeds takes one from both, once its
instruction is done; a step that fails takes nothing, and neither does a word that is
executed without being fetched. No instruction writes the sound timer, so the first value
alone tells which step ends the sound, and only that one beeps. The delay timer starts again
wherever an instruction sets it. -/

namespace ChipEight

namespace State

variable {memory : Memory} {roll : UInt8} {s t : State} {w : Word} {instruction : Instruction}

theorem sound_of_execute (hdecode : Instruction.decode w = .ok instruction)
    (h : s.execute memory roll instruction = .ok t) : t.sound = s.sound := by
  obtain ⟨p, hp, rfl⟩ := Instruction.exists_fits_of_decode hdecode
  exact (same_or_writes hp h .sound).resolve_right nofun

/-- What the delay timer holds once an instruction is done, if there is one. -/
def delayBehind (s : State) : Option Instruction → UInt8
  | some (.setDelay x) => s.read x
  | _ => s.delay

theorem delay_of_execute (hdecode : Instruction.decode w = .ok instruction)
    (h : s.execute memory roll instruction = .ok t) : t.delay = s.delayBehind instruction := by
  obtain ⟨p, hp, rfl⟩ := Instruction.exists_fits_of_decode hdecode
  by_cases hw : w.Fits .setDelay
  · rw [Instruction.eq_of_fits hdecode hw] at h ⊢
    cases h
    rfl
  · have hsame : t.delay = s.delay := (same_or_writes hp h .delay).resolve_right fun h' => by
      cases h' with
      | delay hset => exact hw hset
    cases p with
    | setDelay => exact absurd hp hw
    | _ => exact hsame

theorem delayBehind_of_ne {o : Option Instruction} (h : ∀ x, o ≠ some (.setDelay x)) :
    s.delayBehind o = s.delay := by
  unfold delayBehind
  split
  · exact absurd rfl (h _)
  · rfl

end State

namespace Operation

/-- The number of steps that an operation with this reply completes: one if it is a step
and has not failed. -/
def completed : Operation → Except Stop Reply → Nat
  | step, .ok _ => 1
  | _, _ => 0

theorem completed_le_one (operation : Operation) (reply : Except Stop Reply) :
    operation.completed reply ≤ 1 := by
  unfold completed
  split <;> decide

theorem completed_eq_zero {operation : Operation} {reply : Except Stop Reply}
    (h : operation ≠ step ∨ ∃ stop, reply = .error stop) : operation.completed reply = 0 := by
  unfold completed
  split
  · rcases h with hne | ⟨stop, hstop⟩
    · exact absurd rfl hne
    · cases hstop
  · rfl

theorem completed_eq_one_iff {operation : Operation} {reply : Except Stop Reply} :
    operation.completed reply = 1 ↔ operation = step ∧ ∃ r, reply = .ok r := by
  cases operation <;> cases reply <;> simp [completed]

variable {σ : Type} [RandomSource σ] {m next : Machine σ} {operation : Operation}
  {reply : Except Stop Reply} {history : List Operation}

/-- The number of steps of a history that succeed. -/
def cycles (m : Machine σ) : List Operation → Nat
  | [] => 0
  | operation :: rest =>
    operation.completed (operation.apply m).1 + cycles (operation.apply m).2 rest

theorem cycles_append (m : Machine σ) (h k : List Operation) :
    cycles m (h ++ k) = cycles m h + cycles (after m h) k := by
  induction h generalizing m with
  | nil => exact (Nat.zero_add _).symm
  | cons operation rest ih =>
    rw [List.cons_append, cycles, cycles, ih, Nat.add_assoc]
    rfl

theorem cycles_concat (m : Machine σ) (history : List Operation) (operation : Operation) :
    cycles m (history ++ [operation]) =
      cycles m history + operation.completed (operation.apply (after m history)).1 :=
  cycles_append m history [operation]

/-! ## The sound timer -/

theorem Outcome.toNat_sound (h : operation.Outcome m reply next) (hreset : operation ≠ .reset) :
    next.state.sound.toNat = m.state.sound.toNat - operation.completed reply := by
  cases h with
  | stepped hfetch hdecode hstate =>
    show (State.countDown _).toNat = _
    rw [State.toNat_countDown, State.sound_of_execute hdecode hstate]
    rfl
  | executed hdecode hstate => exact congrArg UInt8.toNat (State.sound_of_execute hdecode hstate)
  | failed => rw [completed_eq_zero (.inr ⟨_, rfl⟩), Nat.sub_zero]
  | reset => exact absurd rfl hreset
  | loaded | pressed | released | written | taken | kept => rfl

/-- Only a step that succeeds beeps, and it does so when the sound timer stands at one. -/
theorem Outcome.beeps_iff (h : operation.Outcome m reply next) :
    reply = .ok (.stepped true) ↔ operation.completed reply = 1 ∧ m.state.sound.toNat = 1 := by
  cases h with
  | stepped hfetch hdecode hstate =>
    have hsound := State.sound_of_execute hdecode hstate
    simp [completed, State.beeps, hsound, ← UInt8.toNat_inj]
  | failed => simp [completed_eq_zero (.inr ⟨_, rfl⟩)]
  | executed | loaded | reset | pressed | released | written | taken | kept => simp [completed]

theorem toNat_sound_after (hsp : m.state.sp.toNat ≤ 16) (hreset : reset ∉ history) :
    (after m history).state.sound.toNat = m.state.sound.toNat - cycles m history := by
  induction history generalizing m with
  | nil => rfl
  | cons operation rest ih =>
    obtain ⟨hne, hrest⟩ := not_or.mp (mt List.mem_cons.mpr hreset)
    have hfirst := (outcome_apply hsp operation).toNat_sound (Ne.symm hne)
    have hlater := ih (sp_le_apply hsp operation) hrest
    rw [hfirst, Nat.sub_sub] at hlater
    exact hlater

/-- A sound beeps once, and only if the steps last until its end. -/
theorem count_beeps (hsp : m.state.sp.toNat ≤ 16) (hreset : reset ∉ history) :
    (replies m history).count (.ok (.stepped true)) =
      if 0 < m.state.sound.toNat ∧ m.state.sound.toNat ≤ cycles m history then 1 else 0 := by
  induction history using List.reverseRecOn with
  | nil =>
    rw [if_neg (by simp only [cycles]; omega)]
    rfl
  | append_singleton history operation ih =>
    have hbefore : reset ∉ history := fun hmem => hreset (List.mem_append_left _ hmem)
    have hbeeps := (outcome_apply (sp_le_after hsp history) operation).beeps_iff
    rw [toNat_sound_after hsp hbefore] at hbeeps
    have hle := operation.completed_le_one (operation.apply (after m history)).1
    rw [replies_concat, List.count_append, ih hbefore, cycles_concat, List.count_singleton]
    -- The last reply is a beep exactly where the count of steps comes to the sound.
    simp only [beq_iff_eq, hbeeps]
    split <;> split <;> split <;> omega

theorem silent_of_sound_eq_zero (hsp : m.state.sp.toNat ≤ 16) (hsound : m.state.sound.toNat = 0)
    (history : List Operation) : .ok (.stepped true) ∉ replies m history := by
  induction history generalizing m with
  | nil => exact List.not_mem_nil
  | cons operation rest ih =>
    have hout := outcome_apply hsp operation
    have hnext : (operation.apply m).2.state.sound.toNat = 0 := by
      by_cases hreset : operation = reset
      · subst hreset
        rfl
      · rw [hout.toNat_sound hreset, hsound, Nat.zero_sub]
    have hrest := ih (sp_le_apply hsp operation) hnext
    refine List.not_mem_cons_of_ne_of_not_mem (fun heq => ?_) hrest
    obtain ⟨-, hone⟩ := hout.beeps_iff.mp heq.symm
    omega

/-- The sound timer is what the steps that have succeeded leave of it, and the step that
takes the last of it is the one that beeps. Nothing else counts it down or beeps, so a
machine that starts with no sound never does, however often it is reset. -/
theorem beep_ends_sound (hsp : m.state.sp.toNat ≤ 16) (hreset : reset ∉ history) :
    (after m history).state.sound.toNat = m.state.sound.toNat - cycles m history ∧
      (∀ operation : Operation, (operation.apply (after m history)).1 = .ok (.stepped true) ↔
        operation = step ∧ (∃ r, (operation.apply (after m history)).1 = .ok r) ∧
          cycles m history + 1 = m.state.sound.toNat) ∧
      (∀ operation : Operation, operation ≠ reset →
        (operation ≠ step ∨ ∃ stop, (operation.apply (after m history)).1 = .error stop) →
        (operation.apply (after m history)).2.state.sound = (after m history).state.sound) ∧
      (replies m history).count (.ok (.stepped true)) ≤ 1 ∧
      ∀ (memory : Memory) (source : σ) (other : List Operation),
        .ok (.stepped true) ∉ replies (Machine.ofMemory memory source) other := by
  have hsound := toNat_sound_after hsp hreset
  refine ⟨hsound, fun operation => ?_, fun operation hne hidle => ?_, ?_, ?_⟩
  · have hlast := outcome_apply (sp_le_after hsp history) operation
    rw [hlast.beeps_iff, completed_eq_one_iff, and_assoc, hsound]
    refine and_congr_right fun _ => and_congr_right fun _ => ?_
    omega
  · have hlast := outcome_apply (sp_le_after hsp history) operation
    refine UInt8.toNat_inj.mp ?_
    rw [hlast.toNat_sound hne, completed_eq_zero hidle, Nat.sub_zero]
  · rw [count_beeps hsp hreset]
    split <;> decide
  · intro memory source other
    have hfresh : (Machine.ofMemory memory source).state.sp.toNat ≤ 16 := Nat.zero_le 16
    exact silent_of_sound_eq_zero hfresh rfl other

/-- Two steps of sound, the first of them followed by a word that is no instruction and by a
key. The next step is the second, so it beeps. -/
theorem beep_ends_sound_two_steps :
    let m : Machine Progression :=
      { memory := Memory.zero.store 0x200 [0x60, 0x01, 0x61, 0x02]
        state := { State.initial with sound := 2 }
        source := { value := 0, increment := 0 } }
    let history := [step, execute 0xFFFF, press 3]
    m.state.sp.toNat ≤ 16 ∧ reset ∉ history ∧ cycles m history = 1 ∧
      (after m history).state.sound.toNat = 1 ∧
      (step.apply (after m history)).1 = .ok (.stepped true) ∧
      (replies m history).count (.ok (.stepped true)) ≤ 1 := by
  intro m history
  have hsp : m.state.sp.toNat ≤ 16 := by decide
  have hreset : reset ∉ history := by decide
  have hcycles : cycles m history = 1 := by decide +kernel
  obtain ⟨hsound, hbeeps, -, honce, -⟩ := beep_ends_sound hsp hreset
  have hsucceeds : ∃ r, (step.apply (after m history)).1 = .ok r :=
    ⟨.stepped true, by decide +kernel⟩
  rw [hcycles] at hsound hbeeps
  exact ⟨hsp, hreset, hcycles, hsound, (hbeeps step).mpr ⟨rfl, hsucceeds, rfl⟩, honce⟩

/-! ## The delay timer -/

theorem Outcome.toNat_delay (h : operation.Outcome m reply next) (hreset : operation ≠ .reset) :
    next.state.delay.toNat =
      (m.state.delayBehind (operation.performed m reply)).toNat - operation.completed reply := by
  cases h with
  | stepped hfetch hdecode hstate =>
    show (State.countDown _).toNat = _
    rw [State.toNat_countDown, State.delay_of_execute hdecode hstate,
      performed_step hfetch hdecode]
    rfl
  | executed hdecode hstate =>
    rw [performed_execute hdecode]
    exact congrArg UInt8.toNat (State.delay_of_execute hdecode hstate)
  | failed =>
    rw [completed_eq_zero (.inr ⟨_, rfl⟩)]
    rfl
  | reset => exact absurd rfl hreset
  | loaded | pressed | released | written | taken | kept => rfl

theorem toNat_delay_after (hsp : m.state.sp.toNat ≤ 16) (hreset : reset ∉ history)
    (hunset : ∀ x, .setDelay x ∉ instructions m history) :
    (after m history).state.delay.toNat = m.state.delay.toNat - cycles m history := by
  induction history generalizing m with
  | nil => rfl
  | cons operation rest ih =>
    obtain ⟨hne, hrest⟩ := not_or.mp (mt List.mem_cons.mpr hreset)
    have hkept : ∀ x, operation.performed m (operation.apply m).1 ≠ some (.setDelay x) :=
      fun x hset => hunset x (List.mem_append_left _ (Option.mem_toList.mpr hset))
    have hfirst := (outcome_apply hsp operation).toNat_delay (Ne.symm hne)
    have hlater := ih (sp_le_apply hsp operation) hrest fun x hset =>
      hunset x (List.mem_append_right _ hset)
    rw [hfirst, State.delayBehind_of_ne hkept, Nat.sub_sub] at hlater
    exact hlater

/-- Where the delay timer counts down from, and how many steps it has counted since. If no
instruction of the history has set it, that is its first value. Otherwise it is the value
that the latest one to do so has set, and a step that executes that one counts as well. -/
inductive CountsFrom (m : Machine σ) (history : List Operation) : UInt8 → Nat → Prop where
  | start (hunset : ∀ x, .setDelay x ∉ instructions m history) :
      CountsFrom m history m.state.delay (cycles m history)
  | set {before since : List Operation} {operation : Operation} {x : Nat}
      (hsplit : history = before ++ operation :: since)
      (hset : .setDelay x ∈ instructions (after m before) [operation])
      (hsince : ∀ y, .setDelay y ∉ instructions (after m (before ++ [operation])) since) :
      CountsFrom m history ((after m before).state.read x)
        (cycles (after m before) (operation :: since))

theorem exists_countsFrom (m : Machine σ) (history : List Operation) :
    ∃ value count, CountsFrom m history value count := by
  induction history using List.reverseRecOn with
  | nil => exact ⟨_, _, .start fun x hset => nomatch hset⟩
  | append_singleton history operation ih =>
    by_cases hlast : ∃ x, .setDelay x ∈ instructions (after m history) [operation]
    · obtain ⟨x, hset⟩ := hlast
      exact ⟨_, _, .set rfl hset fun y hset => nomatch hset⟩
    · obtain ⟨value, count, hcounts⟩ := ih
      cases hcounts with
      | start hunset =>
        refine ⟨_, _, .start fun x hset => ?_⟩
        rw [instructions_append, List.mem_append] at hset
        exact hset.elim (hunset x) fun h => hlast ⟨x, h⟩
      | @set before since first x hsplit hset hsince =>
        subst hsplit
        have hsplit : before ++ first :: since ++ [operation] =
            before ++ first :: (since ++ [operation]) := List.append_assoc ..
        have hhistory : before ++ [first] ++ since = before ++ first :: since := by simp
        refine ⟨_, _, .set hsplit hset fun y hset => ?_⟩
        rw [instructions_append, List.mem_append, ← after_append, hhistory] at hset
        exact hset.elim (hsince y) fun h => hlast ⟨y, h⟩

theorem CountsFrom.toNat_delay {value : UInt8} {count : Nat}
    (h : CountsFrom m history value count) (hsp : m.state.sp.toNat ≤ 16)
    (hreset : reset ∉ history) : (after m history).state.delay.toNat = value.toNat - count := by
  cases h with
  | start hunset => exact toNat_delay_after hsp hreset hunset
  | @set before since first x hsplit hset hsince =>
    subst hsplit
    have hfirst := (outcome_apply (sp_le_after hsp before) first).toNat_delay fun heq => by
      subst heq
      simp at hreset
    rw [mem_instructions_singleton.mp hset] at hfirst
    rw [after_concat] at hsince
    have hlater := toNat_delay_after (sp_le_apply (sp_le_after hsp before) first)
      (fun hmem => hreset (by simp [hmem])) hsince
    rw [hfirst, Nat.sub_sub] at hlater
    rw [after_append]
    exact hlater

/-- A delay timer that is read is read before the step counts it down. -/
theorem Outcome.read_of_readDelay (h : operation.Outcome m reply next) {y : Nat}
    (hread : operation.performed m reply = some (.readDelay y)) :
    next.state.read y = m.state.delay := by
  have hwrite : ∀ {w : Word}, Instruction.decode w = .ok (.readDelay y) →
      (m.state.write y m.state.delay).read y = m.state.delay := by
    intro w hdecode
    have hy : y < 16 := Instruction.lt_of_mem_registers hdecode (.head _)
    rw [State.read_write _ _ _ _ hy, if_pos rfl]
  cases h with
  | stepped hfetch hdecode hstate =>
    rw [performed_step hfetch hdecode] at hread
    cases hread
    cases hstate
    exact hwrite hdecode
  | executed hdecode hstate =>
    rw [performed_execute hdecode] at hread
    cases hread
    cases hstate
    exact hwrite hdecode
  | failed | loaded | reset | pressed | released | written | taken | kept => cases hread

/-- The delay timer is what it was last set to, less the steps that have succeeded since,
or zero. An instruction that reads it gets that number, before its own step counts. -/
theorem delay_counts_from_latest_set (hsp : m.state.sp.toNat ≤ 16) (hreset : reset ∉ history) :
    (∃ value count, CountsFrom m history value count) ∧
      (∀ value count, CountsFrom m history value count →
        (after m history).state.delay.toNat = value.toNat - count) ∧
      ∀ (operation : Operation) (y : Nat),
        .readDelay y ∈ instructions (after m history) [operation] →
          (operation.apply (after m history)).2.state.read y = (after m history).state.delay := by
  refine ⟨exists_countsFrom m history, fun value count hcounts => ?_, fun operation y hread => ?_⟩
  · exact hcounts.toNat_delay hsp hreset
  · have hlast := outcome_apply (sp_le_after hsp history) operation
    exact hlast.read_of_readDelay (mem_instructions_singleton.mp hread)

/-- The timer is set to 5 by a step, which counts, and so does the step behind it. A word that
fails does not. What is read then is 3. -/
theorem delay_counts_from_latest_set_stepped :
    let m : Machine Progression :=
      { memory := Memory.zero.store 0x200 [0xF0, 0x15, 0x61, 0x02]
        state := { State.initial with v := State.initial.v.setIfInBounds 0 5, delay := 9 }
        source := { value := 0, increment := 0 } }
    let history := [step, step, execute 0xFFFF]
    m.state.sp.toNat ≤ 16 ∧ reset ∉ history ∧ CountsFrom m history 5 2 ∧
      (after m history).state.delay.toNat = 3 ∧
      .readDelay 2 ∈ instructions (after m history) [execute 0xF207] ∧
      (((execute 0xF207).apply (after m history)).2.state.read 2).toNat = 3 := by
  intro m history
  have hsp : m.state.sp.toNat ≤ 16 := by decide
  have hreset : reset ∉ history := by decide
  have hset : .setDelay 0 ∈ instructions (after m []) [step] := by decide +kernel
  have hinstructions : instructions (after m ([] ++ [step])) [step, execute 0xFFFF] =
    [.set 1 2] := by decide +kernel
  have hsince : ∀ y,
      .setDelay y ∉ instructions (after m ([] ++ [step])) [step, execute 0xFFFF] := by
    intro y
    rw [hinstructions]
    simp
  have hsplit : history = [] ++ step :: [step, execute 0xFFFF] := rfl
  have hcounts := CountsFrom.set hsplit hset hsince
  have hvalue : (after m []).state.read 0 = 5 := by decide
  have hcycles : cycles (after m []) (step :: [step, execute 0xFFFF]) = 2 := by decide +kernel
  rw [hvalue, hcycles] at hcounts
  obtain ⟨-, hdelay, hread⟩ := delay_counts_from_latest_set hsp hreset
  have hreads : .readDelay 2 ∈ instructions (after m history) [execute 0xF207] := by
    decide +kernel
  have hthree : (after m history).state.delay.toNat = 3 := hdelay 5 2 hcounts
  refine ⟨hsp, hreset, hcounts, hthree, hreads, ?_⟩
  rw [hread _ 2 hreads]
  exact hthree

end Operation

end ChipEight
