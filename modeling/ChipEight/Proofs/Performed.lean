import ChipEight.Proofs.Moves

/-! The instructions that a history carries out. An operation carries out at most one,
that of the word it fetches or is given, and none if it fails. Only the random
instruction takes a byte from the source, and it takes one whatever its mask is; so
the instructions tell how far the source has moved on. -/

namespace ChipEight.Operation

variable {σ : Type} {m next : Machine σ} {operation : Operation} {reply : Except Stop Reply}
  {w : Word} {instruction : Instruction}

/-- The word that an operation executes, fetched or given. -/
def word? (m : Machine σ) : Operation → Option Word
  | step => (m.memory.readWord m.state.pc).toOption
  | execute word => some word
  | load _ | reset | press _ | release _ | writeKey _ _ | takeFrame => none

/-- The instruction of that word. -/
def instruction? (m : Machine σ) (operation : Operation) : Option Instruction :=
  (operation.word? m).bind fun w => (Instruction.decode w).toOption

/-- The instruction that an operation carries out if this is its reply. -/
def performed (m : Machine σ) (operation : Operation) : Except Stop Reply → Option Instruction
  | .ok _ => operation.instruction? m
  | .error _ => none

theorem performed_step (hfetch : m.memory.readWord m.state.pc = .ok w)
    (hdecode : Instruction.decode w = .ok instruction) (r : Reply) :
    step.performed m (.ok r) = some instruction := by
  simp only [performed, instruction?, word?, hfetch, hdecode, Except.toOption, Option.bind_some]

theorem performed_execute (hdecode : Instruction.decode w = .ok instruction) (r : Reply) :
    (execute w).performed m (.ok r) = some instruction := by
  simp only [performed, instruction?, word?, hdecode, Except.toOption, Option.bind_some]

variable [RandomSource σ]

/-- What is noted of the operations of a history, in order. -/
def collect {α : Type} (note : Machine σ → Operation → Except Stop Reply → Option α)
    (m : Machine σ) : List Operation → List α
  | [] => []
  | operation :: rest =>
    (note m operation (operation.apply m).1).toList ++ collect note (operation.apply m).2 rest

theorem collect_append {α : Type} (note : Machine σ → Operation → Except Stop Reply → Option α)
    (m : Machine σ) (h k : List Operation) :
    collect note m (h ++ k) = collect note m h ++ collect note (after m h) k := by
  induction h generalizing m with
  | nil => rfl
  | cons operation rest ih =>
    rw [List.cons_append, collect, collect, ih, List.append_assoc]
    rfl

/-- The instructions that a history carries out, in order. -/
def instructions (m : Machine σ) (history : List Operation) : List Instruction :=
  collect performed m history

theorem instructions_append (m : Machine σ) (h k : List Operation) :
    instructions m (h ++ k) = instructions m h ++ instructions (after m h) k :=
  collect_append performed m h k

theorem mem_instructions_singleton :
    instruction ∈ instructions m [operation] ↔
      operation.performed m (operation.apply m).1 = some instruction := by
  rw [instructions, collect, collect, List.append_nil, Option.mem_toList]

theorem source_behind (instruction : Instruction) (state : State) :
    (m.behind instruction state).source =
      RandomSource.drop m.source ([instruction].countP Instruction.usesChance) := by
  rw [Machine.behind, List.countP_singleton]
  cases instruction.usesChance <;> rfl

theorem Outcome.source_eq (h : operation.Outcome m reply next) :
    next.source = RandomSource.drop m.source
      ((operation.performed m reply).toList.countP Instruction.usesChance) := by
  cases h with
  | stepped hfetch hdecode hstate =>
    rw [performed_step hfetch hdecode]
    exact source_behind _ _
  | executed hdecode hstate =>
    rw [performed_execute hdecode]
    exact source_behind _ _
  | failed | loaded | reset | pressed | released | written | taken | kept => rfl

/-- A history moves the source on by one byte for each random instruction. -/
theorem source_after (hsp : m.state.sp.toNat ≤ 16) (history : List Operation) :
    (after m history).source = RandomSource.drop m.source
      ((instructions m history).countP Instruction.usesChance) := by
  induction history generalizing m with
  | nil => rfl
  | cons operation rest ih =>
    have hfirst := (outcome_apply hsp operation).source_eq
    have hrest := ih (sp_le_apply hsp operation)
    rw [hfirst, ← RandomSource.drop_add, ← List.countP_append] at hrest
    exact hrest

end ChipEight.Operation
