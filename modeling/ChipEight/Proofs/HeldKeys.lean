import ChipEight.Proofs.Admission
import ChipEight.Proofs.KeySkips

/-! The keys that a session holds down. They are the set that the text of the options names:
each of its characters stands for the key that lies over it on the keyboard, an ASCII letter
in either case, and neither the order of the characters nor their repetition matters. No step
writes a key, so the keys stay as they are however long the session runs. -/

namespace ChipEight

namespace Keypad

/-- A small letter stands 32 places behind its capital. -/
theorem toNat_toUpper (c : Char) :
    c.toUpper.toNat = if 97 ≤ c.toNat ∧ c.toNat ≤ 122 then c.toNat - 32 else c.toNat := by
  unfold Char.toUpper
  simp only [UInt32.le_iff_toNat_le]
  split
  · rename_i h
    have hsmall : 97 ≤ c.toNat ∧ c.toNat ≤ 122 := h
    have hsum := UInt32.toNat_add c.val ('A'.val - 'a'.val)
    have hoffset : ('A'.val - 'a'.val).toNat = 4294967264 := by decide
    rw [hoffset, Char.toNat_val] at hsum
    rw [if_pos hsmall, Char.toNat, hsum]
    omega
  · rename_i h
    exact (if_neg h).symm

/-- What is the same but for case is the character itself or its capital letter. -/
theorem toUpper_eq_toUpper_iff {c d : Char} (hd : ¬ (65 ≤ d.toNat ∧ d.toNat ≤ 90)) :
    c.toUpper = d.toUpper ↔ c = d ∨ c = d.toUpper := by
  simp only [← Char.toNat_inj, toNat_toUpper]
  split <;> split <;> omega

theorem toUpper_toUpper (c : Char) : c.toUpper.toUpper = c.toUpper := by
  have hcapital : ¬ (97 ≤ c.toUpper.toNat ∧ c.toUpper.toNat ≤ 122) := by
    rw [toNat_toUpper]
    split <;> omega
  rw [← Char.toNat_inj, toNat_toUpper c.toUpper, if_neg hcapital]

theorem map_fst_layout : layout.map Prod.fst = "1234qwerasdfzxcv".toList := by decide +kernel

theorem not_capital_of_mem_layout :
    ∀ cap ∈ layout, ¬ (65 ≤ cap.1.toNat ∧ cap.1.toNat ≤ 90) := by decide

/-- The layout has the character, or the small letter of it, for this key. -/
def StandsFor (c : Char) (key : Fin 16) : Prop :=
  ∃ cap ∈ layout, cap.2 = key ∧ (c = cap.1 ∨ c = cap.1.toUpper)

variable {c : Char} {key : Fin 16} {cs ds : List Char}

theorem key?_eq_some_iff : key? c = some key ↔ StandsFor c key := by
  have hupper : key? c = some key ↔ ∃ cap ∈ layout, cap.2 = key ∧ c.toUpper = cap.1.toUpper := by
    unfold key?
    -- One case for each character of the layout, and one in which there is no key.
    split <;> simp_all [layout]
  rw [hupper]
  refine exists_congr fun cap => and_congr_right fun hmem => and_congr_right fun _ => ?_
  exact toUpper_eq_toUpper_iff (not_capital_of_mem_layout cap hmem)

theorem some_mem_map_key?_iff : some key ∈ cs.map key? ↔ ∃ c ∈ cs, StandsFor c key := by
  simp only [List.mem_map, key?_eq_some_iff]

theorem mapped_iff :
    Mapped cs ↔ ∀ c ∈ cs, ∃ cap ∈ "1234qwerasdfzxcv".toList, c = cap ∨ c = cap.toUpper := by
  refine forall₂_congr fun c _ => ?_
  simp only [Option.isSome_iff_exists, key?_eq_some_iff, ← map_fst_layout, List.mem_map]
  constructor
  · rintro ⟨_, cap, hmem, -, hc⟩
    exact ⟨cap.1, ⟨cap, hmem, rfl⟩, hc⟩
  · rintro ⟨_, ⟨cap, hmem, rfl⟩, hc⟩
    exact ⟨cap.2, cap, hmem, rfl, hc⟩

/-- Two texts have the same characters, but for their order, their repetition and the case of
ASCII letters. -/
def Alike (cs ds : List Char) : Prop :=
  ∀ c, c ∈ cs.map Char.toUpper ↔ c ∈ ds.map Char.toUpper

theorem map_key?_map_toUpper (cs : List Char) : (cs.map Char.toUpper).map key? = cs.map key? := by
  rw [List.map_map]
  refine List.map_congr_left fun c _ => ?_
  simp only [Function.comp, key?, toUpper_toUpper]

theorem Alike.mem_map_key?_iff (h : Alike cs ds) {named : Option (Fin 16)} :
    named ∈ cs.map key? ↔ named ∈ ds.map key? := by
  rw [← map_key?_map_toUpper cs, ← map_key?_map_toUpper ds, List.mem_map, List.mem_map]
  exact exists_congr fun c => and_congr_left fun _ => h c

theorem Alike.mapped_iff (h : Alike cs ds) : Mapped cs ↔ Mapped ds := by
  have hnone : ∀ cs : List Char, Mapped cs ↔ none ∉ cs.map key? := fun cs => by
    simp [Mapped, Option.isSome_iff_ne_none]
  rw [hnone, hnone, h.mem_map_key?_iff]

theorem Alike.pressAll_eq (h : Alike cs ds) (keys : Vector UInt8 16) :
    pressAll cs keys = pressAll ds keys := by
  simp only [pressAll, h.mem_map_key?_iff]

end Keypad

namespace Operation

variable {σ : Type} [RandomSource σ] {m : Machine σ}

theorem keys_after_steps (hsp : m.state.sp.toNat ≤ 16) (n : Nat) :
    (after m (steps n)).state.keys = m.state.keys := by
  refine Vector.ext fun k hk => ?_
  have hnone : (steps n).reverse.findSome? (status ⟨k, hk⟩) = none := by
    refine List.findSome?_eq_none_iff.mpr fun operation hmem => ?_
    rw [List.eq_of_mem_replicate (List.mem_reverse.mp hmem)]
    rfl
  have hkey := key_after hsp (steps n) ⟨k, hk⟩
  rwa [hnone, Option.getD_none] at hkey

end Operation

open Keypad Operation

namespace Session

variable {σ : Type} {m : Machine σ} {cs ds : List Char}

theorem hold_eq_ok {machine : Machine σ} (h : hold m cs = .ok machine) :
    Mapped cs ∧
      machine = { m with state := { m.state with keys := pressAll cs m.state.keys } } := by
  rcases mapped_or_first_unmapped cs with hmapped | ⟨before, c, rest, rfl, hbefore, hc⟩
  · rw [hold_of_mapped hmapped] at h
    exact ⟨hmapped, (Except.ok.inj h).symm⟩
  · rw [hold_of_unmapped hbefore hc] at h
    cases h

theorem exists_hold_iff : (∃ machine, hold m cs = .ok machine) ↔ Mapped cs :=
  ⟨fun ⟨_, h⟩ => (hold_eq_ok h).1, fun h => ⟨_, hold_of_mapped h⟩⟩

theorem hold_of_alike (h : Alike cs ds) (hmapped : Mapped cs) : hold m ds = hold m cs := by
  rw [hold_of_mapped hmapped, hold_of_mapped (h.mapped_iff.mp hmapped), h.pressAll_eq]

variable [RandomSource σ]

/-- A run, whatever ends it, ends where some number of steps does. -/
theorem exists_steps_of_drive (m : Machine σ) (tracing : Bool) (limit : Option UInt64) :
    ∃ n, (drive tracing limit m).machine = after m (steps n) := by
  show ∃ n, (m.loop (noteAttempt tracing) (limit.map UInt64.toNat) 0 #[]).machine =
    after m (steps n)
  refine Machine.machine_loop (P := fun now => ∃ n, now = after m (steps n)) ?_ ⟨0, rfl⟩
  rintro _ result next hexec ⟨n, rfl⟩
  refine ⟨n + 1, ?_⟩
  rw [after_steps_succ, apply_step_eq_exec, hexec]

theorem runWith_of_alike {keys other : String} (h : Alike keys.toList other.toList)
    (hmapped : Mapped keys.toList) (source : σ) (files : Files) (tracing : Bool) (o : Options) :
    runWith source files tracing { o with keys := other } =
      runWith source files tracing { o with keys } := by
  have hprepare : prepare source files { o with keys := other } =
      prepare source files { o with keys } := by
    simp only [prepare, hold_of_alike h hmapped]
  simp only [runWith, hprepare]

/-- A text is accepted exactly if each of its characters is on the keyboard layout, in either
case. Then the machine is a new one in which the keys that the text names are 1 and all others
0, and so they are behind any number of steps and wherever a run ends. A text that differs in
order, repetition or case only is accepted as well, and leads to the same machine and report. -/
theorem held_keys_are_those_named (memory : Memory) (source : σ) (keys : String) :
    let fresh := Machine.ofMemory memory source
    ((∃ machine, hold fresh keys.toList = .ok machine) ↔
      ∀ c ∈ keys.toList, ∃ cap ∈ "1234qwerasdfzxcv".toList, c = cap ∨ c = cap.toUpper) ∧
    (∀ machine, hold fresh keys.toList = .ok machine →
      machine = { fresh with state := { fresh.state with keys := machine.state.keys } } ∧
      (∀ slot, (∃ c ∈ keys.toList, StandsFor c slot) → machine.state.keys.get slot = 1) ∧
      (∀ slot, (¬ ∃ c ∈ keys.toList, StandsFor c slot) → machine.state.keys.get slot = 0) ∧
      (∀ n, (after machine (steps n)).state.keys = machine.state.keys) ∧
      ∀ tracing limit, (drive tracing limit machine).machine.state.keys = machine.state.keys) ∧
    ∀ other : String, Alike keys.toList other.toList →
      ((∃ machine, hold fresh other.toList = .ok machine) ↔
        ∃ machine, hold fresh keys.toList = .ok machine) ∧
      ∀ machine, hold fresh keys.toList = .ok machine →
        hold fresh other.toList = .ok machine ∧
        ∀ files tracing (o : Options), runWith source files tracing { o with keys := other } =
          runWith source files tracing { o with keys } := by
  intro fresh
  refine ⟨exists_hold_iff.trans mapped_iff, fun machine h => ?_, fun other halike => ?_⟩
  · obtain ⟨-, hmachine⟩ := hold_eq_ok h
    have hsp : machine.state.sp.toNat ≤ 16 := by
      rw [hmachine]
      exact Nat.zero_le 16
    have hkeys : machine.state.keys = pressAll keys.toList fresh.state.keys := by rw [hmachine]
    refine ⟨?_, fun slot hnamed => ?_, fun slot hnamed => ?_, keys_after_steps hsp,
      fun tracing limit => ?_⟩
    · rw [hkeys]
      exact hmachine
    · rw [hkeys, get_pressAll_of_mem (some_mem_map_key?_iff.mpr hnamed)]
    · rw [hkeys, get_pressAll_of_not_mem (mt some_mem_map_key?_iff.mp hnamed)]
      exact State.get_keys_initial slot
    · obtain ⟨n, hn⟩ := exists_steps_of_drive machine tracing limit
      rw [hn]
      exact keys_after_steps hsp n
  · refine ⟨?_, fun machine h => ?_⟩
    · rw [exists_hold_iff, exists_hold_iff, halike.mapped_iff]
    · obtain ⟨hmapped, -⟩ := hold_eq_ok h
      exact ⟨(hold_of_alike halike hmapped).trans h,
        fun files tracing o => runWith_of_alike halike hmapped source files tracing o⟩

/-- The letter q three times, in both cases, and a digit; the other text has each once. The
long s, of which only Unicode knows a capital letter, is no s. -/
theorem held_keys_are_those_named_both_cases :
    let fresh := Machine.ofMemory Memory.zero (Progression.mk 0 0)
    Alike "qQ1q".toList "1Q".toList ∧
      (∃ machine, hold fresh "qQ1q".toList = .ok machine ∧
        machine.state.keys.get 4 = 1 ∧ machine.state.keys.get 1 = 1 ∧
        machine.state.keys.get 0 = 0 ∧
        (after machine (steps 7)).state.keys = machine.state.keys ∧
        hold fresh "1Q".toList = .ok machine) ∧
      ¬ ∃ machine, hold fresh "ſ".toList = .ok machine := by
  intro fresh
  have hkeys : "qQ1q".toList = ['q', 'Q', '1', 'q'] := by decide +kernel
  have hother : "1Q".toList = ['1', 'Q'] := by decide +kernel
  have hlong : "ſ".toList = ['ſ'] := by decide +kernel
  have halike : Alike "qQ1q".toList "1Q".toList := by
    rw [hkeys, hother]
    simp [Alike, or_comm]
  have hmapped : Mapped "qQ1q".toList := by simp [hkeys, Mapped, key?]
  have hunmapped : ¬ Mapped "ſ".toList := by simp [hlong, Mapped, key?]
  obtain ⟨haccepted, hheld, hsame⟩ :=
    held_keys_are_those_named Memory.zero (Progression.mk 0 0) "qQ1q"
  obtain ⟨hrejected, -⟩ := held_keys_are_those_named Memory.zero (Progression.mk 0 0) "ſ"
  obtain ⟨machine, h⟩ := haccepted.mpr (mapped_iff.mp hmapped)
  obtain ⟨-, hnamed, hothers, hsteps, -⟩ := hheld machine h
  have hfour : StandsFor 'q' 4 := key?_eq_some_iff.mp rfl
  have hone : StandsFor '1' 1 := key?_eq_some_iff.mp rfl
  refine ⟨halike, ⟨machine, h, hnamed 4 ⟨'q', ?_, hfour⟩, hnamed 1 ⟨'1', ?_, hone⟩,
    hothers 0 fun hzero => ?_, hsteps 7, ((hsame _ halike).2 machine h).1⟩, fun hheld => ?_⟩
  · simp [hkeys]
  · simp [hkeys]
  · have hmem := some_mem_map_key?_iff.mpr hzero
    simp [hkeys, key?] at hmem
  · exact hunmapped (mapped_iff.mpr (hrejected.mp hheld))

end Session

end ChipEight
