import ChipEight.Proofs.Agreement

/-! What an operation comes to, said once and for all of them: how it answers and
which machine it leaves. Whatever is claimed of every history is proved by cases on
this relation and never by opening a routine. -/

namespace ChipEight

theorem map_eq_ok {α β : Type} {result : Except Fault α} {f : α → β} {b : β}
    (h : result.map f = .ok b) : ∃ a, result = .ok a ∧ f a = b := by
  cases result with
  | error fault => cases h
  | ok a =>
    cases h
    exact ⟨a, rfl, rfl⟩

namespace Machine

variable {σ : Type} {m next : Machine σ}

theorem setKey_eq_ok {key value : UInt8} (h : m.setKey key value = .ok next) :
    ∃ hkey : key.toNat < 16, next = m.writeKey ⟨key.toNat, hkey⟩ value := by
  unfold setKey at h
  split at h
  · rename_i hkey
    cases h
    exact ⟨hkey, rfl⟩
  · cases h

theorem setKey_eq_writeKey {key : UInt8} {slot : Fin 16} (h : key.toNat = slot.val) (m : Machine σ)
    (value : UInt8) : m.setKey key value = .ok (m.writeKey slot value) := by
  rw [setKey, dif_pos (by omega)]
  simp only [h]

variable [RandomSource σ]

/-- The machine behind an instruction that leaves `state`. -/
def behind (m : Machine σ) (instruction : Instruction) (state : State) : Machine σ :=
  { m with state, source :=
    if instruction.usesChance then (RandomSource.next m.source).2 else m.source }

theorem execute_eq_ok {w : Word} (h : m.execute w = .ok next) :
    ∃ instruction state, Instruction.decode w = .ok instruction ∧
      m.state.execute m.memory (RandomSource.next m.source).1 instruction = .ok state ∧
      next = m.behind instruction state := by
  unfold execute at h
  split at h
  · cases h
  · rename_i instruction hdecode
    obtain ⟨state, hstate, rfl⟩ := map_eq_ok h
    exact ⟨instruction, state, hdecode, hstate, rfl⟩

theorem step_eq_ok {cycle : Cycle} (h : m.step = .ok (cycle, next)) :
    ∃ w middle, m.memory.readWord m.state.pc = .ok w ∧ m.execute w = .ok middle ∧
      cycle = { beep := middle.state.beeps } ∧
      next = { middle with state := middle.state.tick } := by
  unfold step at h
  split at h
  · cases h
  · rename_i w hfetch
    obtain ⟨middle, hmiddle, heq⟩ := map_eq_ok h
    cases heq
    exact ⟨w, middle, hfetch, hmiddle, rfl, rfl⟩

end Machine

namespace Operation

variable {σ : Type} [RandomSource σ] {m : Machine σ}

/-- How an operation on `m` can be answered, and the machine that it then leaves. -/
inductive Outcome (m : Machine σ) : Operation → Except Stop Reply → Machine σ → Prop where
  | failed {operation : Operation} {fault : Fault} (h : operation.result m = .error fault) :
      Outcome m operation (.error (.fault fault)) m
  | stepped {word : Word} {instruction : Instruction} {state : State}
      (hfetch : m.memory.readWord m.state.pc = .ok word)
      (hdecode : Instruction.decode word = .ok instruction)
      (hstate : m.state.execute m.memory (RandomSource.next m.source).1 instruction = .ok state) :
      Outcome m step (.ok (.stepped state.beeps)) (m.behind instruction state.tick)
  | executed {word : Word} {instruction : Instruction} {state : State}
      (hdecode : Instruction.decode word = .ok instruction)
      (hstate : m.state.execute m.memory (RandomSource.next m.source).1 instruction = .ok state) :
      Outcome m (execute word) (.ok .done) (m.behind instruction state)
  | loaded {image : List UInt8} {memory : Memory} (hload : m.memory.load image = .ok memory) :
      Outcome m (load image) (.ok .done) { m with memory }
  | reset : Outcome m reset (.ok .done) m.reset
  | pressed {key : UInt8} (hkey : key.toNat < 16) :
      Outcome m (press key) (.ok .done) (m.writeKey ⟨key.toNat, hkey⟩ 1)
  | released {key : UInt8} (hkey : key.toNat < 16) :
      Outcome m (release key) (.ok .done) (m.writeKey ⟨key.toNat, hkey⟩ 0)
  | written (key : Fin 16) (value : UInt8) :
      Outcome m (writeKey key value) (.ok .done) (m.writeKey key value)
  | taken (hredraw : m.state.redraw = true) :
      Outcome m takeFrame (.ok (.frame (some m.state.frame)))
        { m with state := { m.state with redraw := false } }
  | kept (hredraw : m.state.redraw = false) : Outcome m takeFrame (.ok (.frame none)) m

theorem outcome_takeFrame :
    Outcome m takeFrame (.ok (.frame m.takeFrame.1)) m.takeFrame.2 := by
  unfold Machine.takeFrame
  cases hredraw : m.state.redraw with
  | true => exact .taken hredraw
  | false => exact .kept hredraw

theorem outcome_of_result_ok {operation : Operation} {reply : Reply} {next : Machine σ}
    (h : operation.result m = .ok (reply, next)) : operation.Outcome m (.ok reply) next := by
  cases operation with
  | step =>
    obtain ⟨⟨cycle, after⟩, hstep, heq⟩ := map_eq_ok h
    cases heq
    obtain ⟨w, middle, hfetch, hmiddle, rfl, rfl⟩ := Machine.step_eq_ok hstep
    obtain ⟨instruction, state, hdecode, hstate, rfl⟩ := Machine.execute_eq_ok hmiddle
    exact .stepped hfetch hdecode hstate
  | execute word =>
    obtain ⟨after, hexecute, heq⟩ := map_eq_ok h
    cases heq
    obtain ⟨instruction, state, hdecode, hstate, rfl⟩ := Machine.execute_eq_ok hexecute
    exact .executed hdecode hstate
  | load image =>
    obtain ⟨after, hload, heq⟩ := map_eq_ok h
    cases heq
    obtain ⟨memory, hmemory, rfl⟩ := map_eq_ok hload
    exact .loaded hmemory
  | reset =>
    cases h
    exact .reset
  | press key =>
    obtain ⟨after, hset, heq⟩ := map_eq_ok h
    cases heq
    obtain ⟨hkey, rfl⟩ := Machine.setKey_eq_ok hset
    exact .pressed hkey
  | release key =>
    obtain ⟨after, hset, heq⟩ := map_eq_ok h
    cases heq
    obtain ⟨hkey, rfl⟩ := Machine.setKey_eq_ok hset
    exact .released hkey
  | writeKey key value =>
    cases h
    exact .written key value
  | takeFrame =>
    cases h
    exact outcome_takeFrame

theorem outcome_apply (hsp : m.state.sp.toNat ≤ 16) (operation : Operation) :
    operation.Outcome m (operation.apply m).1 (operation.apply m).2 := by
  cases hresult : operation.result m with
  | error fault =>
    rw [apply_of_result_error hsp hresult]
    exact .failed hresult
  | ok pair =>
    rw [apply_of_result_ok hsp hresult]
    exact outcome_of_result_ok hresult

end Operation

end ChipEight
