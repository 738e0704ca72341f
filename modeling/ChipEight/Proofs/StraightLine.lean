import ChipEight.Machine.Run
import ChipEight.Proofs.ProgramCounter

/-! Programs that run straight on. A program without a jump, a call, a return or a skip is
executed from its first word to its last, each in its place: whoever takes the words from a
list, executes them one after another and counts the timers down behind each does what the
steps of the loaded program do, up to the first that fails. It makes no difference that the
sprites of such a program are read from the image itself, since nothing writes to it. -/

namespace ChipEight

namespace Instruction

/-- Control goes on from these to the next word. -/
def straight : Instruction → Bool
  | clear | set _ _ | add _ _ | copy _ _ | setIndex _ | random _ _ | draw _ _ _ | readDelay _
  | setDelay _ | addIndex _ => true
  | ret | jump _ | call _ | skipEqual _ _ | skipUnequal _ _ | skipDifferent _ _ | skipPressed _
  | skipReleased _ => false

end Instruction

/-- The word has an instruction from which control goes on to the next one, or none at all. -/
def Word.Straight (w : Word) : Prop :=
  ∀ instruction ∈ (Instruction.decode w).toOption, instruction.straight = true

instance (w : Word) : Decidable w.Straight := inferInstanceAs (Decidable (∀ _ ∈ _, _))

theorem Word.Straight.of_decode {w : Word} {instruction : Instruction} (hw : w.Straight)
    (h : Instruction.decode w = .ok instruction) : instruction.straight = true :=
  hw instruction (by rw [h]; rfl)

namespace Memory

/-- The words stand one behind another, the first of them at `address`. -/
def Holds (m : Memory) (address : UInt16) : List Word → Prop
  | [] => True
  | w :: ws => m.readWord address = .ok w ∧ Holds m (address + 2) ws

theorem toNat_add_two {address : UInt16} (h : address.toNat + 2 < 65536) :
    (address + 2).toNat = address.toNat + 2 :=
  (UInt16.toNat_add address 2).trans (Nat.mod_eq_of_lt h)

/-- A stored image of words is read as these words. -/
theorem holds_store (m : Memory) {words : List Word} {address : UInt16}
    (h : address.toNat + 2 * words.length ≤ 4096) :
    (m.store address.toNat (words.flatMap Word.bytes)).Holds address words := by
  induction words generalizing m address with
  | nil => trivial
  | cons w ws ih =>
    rw [List.length_cons] at h
    have hnext : (address + 2).toNat = address.toNat + 2 := toNat_add_two (by omega)
    have hplace : address.toNat + 1 + 1 = (address + 2).toNat := hnext.symm
    rw [List.flatMap_cons, Word.bytes, List.cons_append, List.cons_append, List.nil_append, store,
      store, hplace]
    refine ⟨readWord_eq_ok_iff.mpr ⟨_, _, ?_, ?_, (Word.ofBytes_bytes w).symm⟩, ih _ (by omega)⟩
    -- What is stored behind the word leaves its two bytes alone.
    all_goals
      rw [Vector.getElem?_eq_getElem (by omega), getElem_store _ _ _ _ (by omega),
        if_neg (by omega)]
      simp

theorem Holds.take {m : Memory} {address : UInt16} {words : List Word} (h : m.Holds address words)
    (k : Nat) : m.Holds address (words.take k) := by
  induction words generalizing address k with
  | nil => rwa [List.take_nil]
  | cons w ws ih =>
    cases k with
    | zero => trivial
    | succ k => exact ⟨h.1, ih h.2 k⟩

end Memory

namespace State

variable {memory : Memory} {roll : UInt8} {s t : State} {instruction : Instruction}

theorem destination_of_straight (h : instruction.straight = true) :
    s.destination instruction = s.pc.toNat + 2 := by
  cases instruction with
  | ret | jump _ | call _ | skipEqual _ _ | skipUnequal _ _ | skipDifferent _ _ | skipPressed _
  | skipReleased _ => cases h
  | _ => rfl

theorem pc_of_straight (hstraight : instruction.straight = true)
    (h : s.execute memory roll instruction = .ok t) : t.pc = s.pc + 2 := by
  refine UInt16.toNat_inj.mp ?_
  rw [toNat_pc_of_execute h, destination_of_straight hstraight]
  exact (UInt16.toNat_add s.pc 2).symm

end State

namespace Routine

open ChipEight.Action

variable {σ : Type} [RandomSource σ] {m : Machine σ} {w : Word}

/-- Executes a word that is given, and counts the timers down behind it. -/
def cycle (w : Word) : Action (Machine σ) Cycle := do
  execute w
  onState tick

/-- A step is the cycle of the word that it fetches. -/
theorem exec_step_of_fetch (hfetch : m.memory.readWord m.state.pc = .ok w) :
    exec step m = exec (cycle w) m := by
  simp only [step, cycle, exec_bind, exec_get, hfetch, exec_ofExcept_ok]

theorem exec_cycle (hsp : Instruction.decode w = .ok .ret → m.state.sp.toNat ≤ 16) :
    exec (cycle w) m = settle m ((m.execute w).map fun next =>
      ({ beep := next.state.beeps }, { next with state := next.state.tick })) := by
  simp only [cycle, exec_bind, exec_execute hsp]
  cases m.execute w with
  | error fault => rfl
  | ok next => simp only [finish, Except.map, settle, onState, exec_on, exec_tick]

/-- A word from which control goes on never crashes. It fails and leaves the machine as it
was, or it leaves the memory alone and the program counter at the next word. -/
theorem exec_cycle_of_straight (hw : w.Straight) :
    (∃ fault, exec (cycle w) m = (.error (.fault fault), m)) ∨
      ∃ done next, exec (cycle w) m = (.ok done, next) ∧ next.memory = m.memory ∧
        next.state.pc = m.state.pc + 2 := by
  rw [exec_cycle fun hret => nomatch hw.of_decode hret]
  cases hexecute : m.execute w with
  | error fault => exact .inl ⟨fault, rfl⟩
  | ok next =>
    obtain ⟨instruction, state, hdecode, hstate, rfl⟩ := Machine.execute_eq_ok hexecute
    have hpc : state.pc = m.state.pc + 2 := State.pc_of_straight (hw.of_decode hdecode) hstate
    exact .inr ⟨_, _, rfl, rfl, hpc⟩

end Routine

namespace Machine

open ChipEight.Action

variable {σ α : Type} [RandomSource σ] {m : Machine σ} {words : List Word}
  {observe : α → Attempt σ → α} {cycles : UInt64} {notes : α}

/-- Goes on, behind `cycles` others, with a run that takes its words from a list and not from
memory. -/
def runWords (observe : α → Attempt σ → α) (cycles : Nat) (notes : α) (m : Machine σ) :
    List Word → Run σ α
  | [] => { cycles, machine := m, stop := none, notes }
  | w :: ws =>
    let (result, next) := exec (Routine.cycle w) m
    let notes := observe notes { number := cycles, before := m, result }
    match result with
    | .error stop => { cycles, machine := next, stop := some stop, notes }
    | .ok _ => runWords observe (cycles + 1) notes next ws

theorem loop_eq_runWords (hstraight : ∀ w ∈ words, w.Straight)
    (hholds : m.memory.Holds m.state.pc words)
    (hsize : cycles.toNat + words.length < UInt64.size) :
    loop observe (some (cycles.toNat + words.length)) cycles notes m =
      m.runWords observe cycles.toNat notes words := by
  induction words generalizing m cycles notes with
  | nil => exact loop_at_limit rfl
  | cons w ws ih =>
    obtain ⟨hw, hws⟩ := List.forall_mem_cons.mp hstraight
    obtain ⟨hfetch, hrest⟩ := hholds
    rw [List.length_cons] at hsize
    have hlimit : ∀ l ∈ some (cycles.toNat + (w :: ws).length), cycles.toNat < l := by simp
    rcases Routine.exec_cycle_of_straight (m := m) hw with
      ⟨fault, hcycle⟩ | ⟨done, next, hcycle, hmemory, hpc⟩
    · rw [loop_of_error hlimit ((Routine.exec_step_of_fetch hfetch).trans hcycle), runWords,
        hcycle]
    · have hbelow : cycles.toNat + 1 < UInt64.size := by omega
      have hcount : (cycles + 1).toNat = cycles.toNat + 1 := toNat_add_of_lt hbelow
      have hplaced : next.memory.Holds next.state.pc ws := by
        rw [hmemory, hpc]
        exact hrest
      have hlength : cycles.toNat + (w :: ws).length = (cycles + 1).toNat + ws.length := by
        rw [hcount, List.length_cons]
        omega
      rw [loop_of_ok hlimit hbelow ((Routine.exec_step_of_fetch hfetch).trans hcycle),
        hlength, ih hws hplaced (by omega), runWords, hcycle, hcount]

theorem run_eq_runWords (hstraight : ∀ w ∈ words, w.Straight)
    (hholds : m.memory.Holds m.state.pc words) (hsize : words.length < UInt64.size) :
    m.run observe words.length notes = m.runWords observe 0 notes words := by
  have hstart : (0 : UInt64).toNat + words.length = words.length := Nat.zero_add _
  have hloop : loop observe (some ((0 : UInt64).toNat + words.length)) 0 notes m = _ :=
    loop_eq_runWords hstraight hholds (hstart.symm ▸ hsize)
  rw [hstart] at hloop
  exact hloop

/-- Words from which control goes on never crash, and if none of them fails, they leave the
program counter behind the last. -/
theorem toNat_pc_runWords (hstraight : ∀ w ∈ words, w.Straight) {count : Nat}
    (hend : m.state.pc.toNat + 2 * words.length < 65536) :
    let run := m.runWords observe count notes words
    run.stop ≠ some .crash ∧
      (run.stop = none → run.machine.state.pc.toNat = m.state.pc.toNat + 2 * words.length) := by
  induction words generalizing m count notes with
  | nil => simp [runWords]
  | cons w ws ih =>
    obtain ⟨hw, hws⟩ := List.forall_mem_cons.mp hstraight
    rw [List.length_cons] at hend ⊢
    rw [runWords]
    rcases Routine.exec_cycle_of_straight (m := m) hw with
      ⟨fault, hcycle⟩ | ⟨done, next, hcycle, -, hpc⟩
    · rw [hcycle]
      exact ⟨nofun, nofun⟩
    · have hnext : next.state.pc.toNat = m.state.pc.toNat + 2 := by
        rw [hpc, Memory.toNat_add_two (by omega)]
      rw [hcycle]
      obtain ⟨hcrash, hlast⟩ := @ih next _ hws (count + 1) (by omega)
      refine ⟨hcrash, fun hstop => (hlast hstop).trans ?_⟩
      omega

end Machine

namespace Operation

open ChipEight.Action

variable {σ : Type} [RandomSource σ] {words : List Word}

theorem apply_load {image : List UInt8} (h : image.length ≤ Memory.capacity) (m : Machine σ) :
    (load image).apply m = (.ok .done, { m with memory := m.memory.store 0x200 image }) := by
  simp only [apply, routine, exec_bind, Routine.exec_load, Machine.load, Memory.load, if_pos h]
  rfl

theorem length_flatMap_bytes (words : List Word) :
    (words.flatMap Word.bytes).length = 2 * words.length := by
  induction words with
  | nil => rfl
  | cons w ws ih =>
    simp only [List.flatMap_cons, List.length_append, ih, Word.bytes, List.length_cons,
      List.length_nil]
    omega

/-- A program from which control never departs, once it is loaded, runs as its words do when
they are executed one after another on the loaded machine, each with its tick, up to the
first that fails. Whatever is noted of the attempts on the way is the same. Where no word has
failed, the program counter has moved on by two for each. -/
theorem loaded_program_runs_its_words (hlength : words.length ≤ 1792)
    (hstraight : ∀ w ∈ words, w.Straight) {m : Machine σ} (hpc : m.state.pc = 0x200) :
    let image := words.flatMap Word.bytes
    let loaded : Machine σ := { m with memory := m.memory.store 0x200 image }
    (load image).apply m = (.ok .done, loaded) ∧
      ∀ {α : Type} (observe : α → Attempt σ → α) (notes : α), ∀ k ≤ words.length,
        let run := loaded.run observe k notes
        run = loaded.runWords observe 0 notes (words.take k) ∧ run.stop ≠ some .crash ∧
          (run.stop = none → run.machine.state.pc.toNat = 0x200 + 2 * k) := by
  intro image loaded
  have himage : image.length = 2 * words.length := length_flatMap_bytes words
  have hfits : image.length ≤ Memory.capacity := by
    rw [himage]
    exact Nat.mul_le_mul_left 2 hlength
  refine ⟨apply_load hfits m, fun observe notes k hk => ?_⟩
  have hwords : ∀ w ∈ words.take k, w.Straight := fun w hw => hstraight w (List.mem_of_mem_take hw)
  have htake : (words.take k).length = k := List.length_take_of_le hk
  have hplace : m.state.pc.toNat = 0x200 := by
    rw [hpc]
    rfl
  have hholds : loaded.memory.Holds loaded.state.pc (words.take k) := by
    have hstored : (m.memory.store m.state.pc.toNat image).Holds m.state.pc words :=
      Memory.holds_store m.memory (by omega)
    rw [hplace] at hstored
    exact hstored.take k
  have hrun : loaded.run observe k notes = loaded.runWords observe 0 notes (words.take k) := by
    have hsize : (words.take k).length < UInt64.size := by
      rw [htake]
      exact Nat.lt_of_le_of_lt (Nat.le_trans hk hlength) (by decide)
    rw [← Machine.run_eq_runWords hwords hholds hsize, htake]
  have hend : loaded.state.pc.toNat + 2 * (words.take k).length < 65536 := by
    show m.state.pc.toNat + _ < _
    omega
  obtain ⟨hcrash, hlast⟩ := Machine.toNat_pc_runWords hwords hend
  rw [htake, hplace] at hlast
  rw [hrun]
  exact ⟨rfl, hcrash, hlast⟩

/-- The first two bytes of the image are drawn as a sprite, which ends the sound, and the
third word is no instruction. The stack pointer is out of its range all the while. -/
theorem loaded_program_runs_its_words_own_sprite :
    let words : List Word := [0xA200, 0xD002, 0xF133]
    let m : Machine Progression :=
      { memory := Memory.zero
        state := { State.initial with sp := 200, sound := 2 }
        source := { value := 0, increment := 0 } }
    let loaded := { m with memory := m.memory.store 0x200 (words.flatMap Word.bytes) }
    let run := loaded.run (fun cycles a => cycles ++ a.result.toOption.toList) 3 []
    words.length ≤ 1792 ∧ (∀ w ∈ words, w.Straight) ∧ m.state.pc = 0x200 ∧ run.cycles = 2 ∧
      run.stop = some (.fault (.unknownWord 0xF133)) ∧
      run.notes = [{ beep := false }, { beep := true }] := by
  intro words m loaded run
  have hlength : words.length ≤ 1792 := by decide
  have hstraight : ∀ w ∈ words, w.Straight := by
    simp only [words, List.forall_mem_cons, List.not_mem_nil, false_implies, implies_true]
    decide
  have hpc : m.state.pc = 0x200 := rfl
  obtain ⟨-, hruns⟩ := loaded_program_runs_its_words hlength hstraight hpc
  obtain ⟨hrun, -, -⟩ := hruns (fun cycles a => cycles ++ a.result.toOption.toList) [] 3 (by decide)
  refine ⟨hlength, hstraight, hpc, ?_⟩
  show (loaded.run _ 3 []).cycles = 2 ∧ (loaded.run _ 3 []).stop = _ ∧ (loaded.run _ 3 []).notes = _
  rw [hrun]
  decide +kernel

end Operation

end ChipEight
