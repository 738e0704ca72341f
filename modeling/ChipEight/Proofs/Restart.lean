import ChipEight.Proofs.Overlay

/-! A reset starts the program again. It renews the state as a whole and nothing else, and
without a load the memory is what it was at first; so the machine behind a reset is a new one
over the same memory. Only its source has moved on, by one byte for each random instruction
that was carried out. A program that has failed is not loaded again before it is run again. -/

namespace ChipEight.Operation

variable {σ : Type} [RandomSource σ] {m : Machine σ} {history : List Operation}

theorem apply_reset (m : Machine σ) :
    reset.apply m = (.ok .done, Machine.ofMemory m.memory m.source) := rfl

/-- Behind a history without a load and a reset stands a new machine. -/
theorem after_reset (hsp : m.state.sp.toNat ≤ 16) (hload : ∀ image, load image ∉ history) :
    after m (history ++ [reset]) = Machine.ofMemory m.memory
      (RandomSource.drop m.source ((instructions m history).countP Instruction.usesChance)) := by
  rw [after_concat, apply_reset, memory_after_of_not_load hsp hload, source_after hsp]

/-- Whatever was done to a machine, if only nothing was loaded, a reset makes it answer all
that comes later as a new machine over the same memory does, and leaves it as that machine
is left. The new one has the source that remains behind the bytes of the random
instructions. -/
theorem reset_restarts (memory : Memory) (source : σ) (hload : ∀ image, load image ∉ history)
    (later : List Operation) :
    let m := Machine.ofMemory memory source
    let again := Machine.ofMemory memory (RandomSource.drop source
      ((instructions m history).countP Instruction.usesChance))
    replies m (history ++ reset :: later) =
        replies m history ++ .ok .done :: replies again later ∧
      after m (history ++ reset :: later) = after again later := by
  intro m again
  have hsp : m.state.sp.toNat ≤ 16 := Nat.zero_le 16
  have hagain : (reset.apply (after m history)).2 = again := by
    rw [← after_concat]
    exact after_reset hsp hload
  constructor
  · rw [replies_append, ← hagain]
    rfl
  · rw [after_append, ← hagain]
    rfl

/-- A program that takes a random byte and then returns from no routine. It is stuck there,
and a reset runs it again with the next byte. -/
theorem reset_restarts_stuck_program :
    let memory := Memory.zero.store 0x200 [0xC0, 0xFF, 0x00, 0xEE]
    let m := Machine.ofMemory memory (Progression.mk 5 3)
    let again := Machine.ofMemory memory (Progression.mk 8 3)
    let history := [step, step, step]
    (∀ image, load image ∉ history) ∧
      replies m history =
        [.ok (.stepped false), .error (.fault .stackEmpty), .error (.fault .stackEmpty)] ∧
      replies m (history ++ reset :: history) =
        replies m history ++ .ok .done :: replies again history ∧
      after m (history ++ reset :: history) = after again history := by
  intro memory m again history
  have hload : ∀ image, load image ∉ history := by simp [history]
  have hreplies : replies m history =
      [.ok (.stepped false), .error (.fault .stackEmpty), .error (.fault .stackEmpty)] := by
    decide +kernel
  have hcount : (instructions m history).countP Instruction.usesChance = 1 := by decide +kernel
  have hrestarts := reset_restarts memory (Progression.mk 5 3) hload history
  dsimp only at hrestarts
  rw [hcount] at hrestarts
  exact ⟨hload, hreplies, hrestarts⟩

end ChipEight.Operation
