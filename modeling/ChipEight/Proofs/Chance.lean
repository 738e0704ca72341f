import ChipEight.Proofs.FaultTable
import ChipEight.Proofs.Performed

/-! How far a run depends on its source of random bytes. Only the random instruction looks at
a byte, and only through its mask, so two sources whose bytes agree under the masks that come
up, one after another, lead to the same replies and the same states. It is the run itself that
decides which masks those are, and they are counted in the order in which they come up. -/

namespace ChipEight

/-- The bytes of two sources agree under masks, the first bytes under the first mask. -/
def AgreeUnder {σ τ : Type} [RandomSource σ] [RandomSource τ] (masks : List UInt8) (f : σ)
    (g : τ) : Prop :=
  ∀ j mask, masks[j]? = some mask →
    RandomSource.byte f j &&& mask = RandomSource.byte g j &&& mask

section

variable {σ τ : Type} [RandomSource σ] [RandomSource τ] {f : σ} {g : τ}

/-- The sources go on to agree behind the bytes that belong to the first masks. -/
theorem AgreeUnder.of_append {first rest : List UInt8} (h : AgreeUnder (first ++ rest) f g) :
    AgreeUnder first f g ∧
      AgreeUnder rest (RandomSource.drop f first.length) (RandomSource.drop g first.length) := by
  refine ⟨fun j mask hmask => h j mask ?_, fun j mask hmask => ?_⟩
  · obtain ⟨hlt, -⟩ := List.getElem?_eq_some_iff.mp hmask
    rw [List.getElem?_append_left hlt, hmask]
  · rw [RandomSource.byte_drop, RandomSource.byte_drop]
    refine h _ mask ?_
    rw [List.getElem?_append_right (Nat.le_add_right ..), Nat.add_sub_cancel_left, hmask]

theorem AgreeUnder.mask_eq {o : Option UInt8} (h : AgreeUnder o.toList f g) :
    ∀ mask ∈ o, (RandomSource.next f).1 &&& mask = (RandomSource.next g).1 &&& mask := by
  intro mask hmem
  rw [Option.mem_def.mp hmem] at h
  exact h 0 mask rfl

theorem agreeUnder_of_forall_eq_zero {masks : List UInt8} (h : ∀ mask ∈ masks, mask = 0) (f : σ)
    (g : τ) : AgreeUnder masks f g := by
  intro j mask hmask
  rw [h mask (List.mem_of_getElem? hmask), UInt8.and_zero, UInt8.and_zero]

end

namespace Machine

variable {σ τ : Type} {m : Machine σ}

/-- The same machine with another source. -/
def withSource (m : Machine σ) (source : τ) : Machine τ :=
  { memory := m.memory, state := m.state, source }

theorem load_withSource (image : List UInt8) (g : τ) :
    (m.withSource g).load image = (m.load image).map fun next => next.withSource g := by
  simp only [load, withSource]
  cases m.memory.load image <;> rfl

theorem setKey_withSource (key value : UInt8) (g : τ) :
    (m.withSource g).setKey key value =
      (m.setKey key value).map fun next => next.withSource g := by
  unfold setKey
  split <;> rfl

theorem takeFrame_withSource (g : τ) :
    (m.withSource g).takeFrame = (m.takeFrame.1, m.takeFrame.2.withSource g) := by
  by_cases hredraw : m.state.redraw = true <;> simp [takeFrame, withSource, hredraw]

variable [RandomSource σ] [RandomSource τ] {g : τ}

theorem perform_withSource {instruction : Instruction}
    (h : AgreeUnder instruction.mask?.toList m.source g) :
    (m.withSource g).perform instruction = (m.perform instruction).map fun next =>
      next.withSource (RandomSource.drop g instruction.mask?.toList.length) := by
  have hstate : m.state.execute m.memory (RandomSource.next g).1 instruction =
      m.state.execute m.memory (RandomSource.next m.source).1 instruction :=
    (State.execute_congr_roll h.mask_eq).symm
  simp only [perform, withSource, hstate, Instruction.usesChance_eq_isSome]
  cases m.state.execute m.memory (RandomSource.next m.source).1 instruction with
  | error fault => rfl
  | ok state => cases instruction.mask? <;> rfl

end Machine

namespace Operation

variable {σ τ : Type} {m : Machine σ}

/-- The mask of the random instruction, if an operation executes that one. -/
def mask? (m : Machine σ) (operation : Operation) : Option UInt8 :=
  (operation.instruction? m).bind Instruction.mask?

theorem mask?_execute (w : Word) :
    (execute w).mask? m = (Instruction.decode w).toOption.bind Instruction.mask? := rfl

theorem mask?_step {w : Word} (hfetch : m.memory.readWord m.state.pc = .ok w) :
    step.mask? m = (execute w).mask? m := by
  simp only [mask?, instruction?, word?, hfetch, Except.toOption]

variable [RandomSource σ] [RandomSource τ] {g : τ}

theorem execute_withSource {w : Word} (h : AgreeUnder ((execute w).mask? m).toList m.source g) :
    (m.withSource g).execute w = (m.execute w).map fun next =>
      next.withSource (RandomSource.drop g ((execute w).mask? m).toList.length) := by
  rw [mask?_execute] at h ⊢
  rw [Machine.execute, Machine.execute]
  cases hdecode : Instruction.decode w with
  | error fault => rfl
  | ok instruction =>
    rw [hdecode] at h
    exact Machine.perform_withSource h

theorem step_withSource (h : AgreeUnder (step.mask? m).toList m.source g) :
    (m.withSource g).step = m.step.map fun pair =>
      (pair.1, pair.2.withSource (RandomSource.drop g (step.mask? m).toList.length)) := by
  have hread : (m.withSource g).memory.readWord (m.withSource g).state.pc =
      m.memory.readWord m.state.pc := rfl
  simp only [Machine.step, hread]
  cases hfetch : m.memory.readWord m.state.pc with
  | error fault => rfl
  | ok w =>
    rw [mask?_step hfetch] at h ⊢
    simp only [execute_withSource h]
    cases m.execute w <;> rfl

/-- What an operation comes to over the second source, which then goes on from where
the first does. -/
theorem result_withSource (operation : Operation)
    (h : AgreeUnder (operation.mask? m).toList m.source g) :
    operation.result (m.withSource g) = (operation.result m).map fun pair =>
      (pair.1, pair.2.withSource (RandomSource.drop g (operation.mask? m).toList.length)) := by
  cases operation with
  | step =>
    simp only [result, step_withSource h]
    cases m.step <;> rfl
  | execute word =>
    simp only [result, execute_withSource h]
    cases m.execute word <;> rfl
  | load image =>
    simp only [result, Machine.load_withSource]
    cases m.load image <;> rfl
  | press key | release key =>
    simp only [result, Machine.press, Machine.release, Machine.setKey_withSource]
    cases m.setKey key _ <;> rfl
  | takeFrame =>
    simp only [result, Machine.takeFrame_withSource]
    rfl
  | reset | writeKey key value => rfl

/-- The random instruction does not fail. -/
theorem mask?_of_execute_error {w : Word} {fault : Fault} (h : m.execute w = .error fault) :
    (execute w).mask? m = none := by
  rw [mask?_execute]
  rw [Machine.execute] at h
  cases hdecode : Instruction.decode w with
  | error other => rfl
  | ok instruction =>
    rw [hdecode] at h
    cases instruction with
    | random x mask => cases h
    | _ => rfl

theorem mask?_of_fault (hsp : m.state.sp.toNat ≤ 16) {operation : Operation} {fault : Fault}
    (h : (operation.apply m).1 = .error (.fault fault)) : operation.mask? m = none := by
  cases operation with
  | step =>
    rcases (apply_step_eq_error_iff hsp).mp h with hfetch | ⟨w, hfetch, hexecute⟩
    · simp only [mask?, instruction?, word?, hfetch]
      rfl
    · rw [mask?_step hfetch, mask?_of_execute_error hexecute]
  | execute word => exact mask?_of_execute_error ((apply_execute_eq_error_iff hsp).mp h)
  | _ => rfl

theorem apply_withSource (hsp : m.state.sp.toNat ≤ 16) {operation : Operation}
    (h : AgreeUnder (operation.mask? m).toList m.source g) :
    operation.apply (m.withSource g) = ((operation.apply m).1, (operation.apply m).2.withSource
      (RandomSource.drop g (operation.mask? m).toList.length)) := by
  have hsp' : (m.withSource g).state.sp.toNat ≤ 16 := hsp
  rw [apply_eq hsp', result_withSource operation h]
  cases hresult : operation.result m with
  | ok pair =>
    rw [apply_of_result_ok hsp hresult]
    rfl
  | error fault =>
    rw [mask?_of_fault hsp ((apply_eq_error_iff hsp).mpr hresult),
      apply_of_result_error hsp hresult]
    rfl

/-- The masks of the random instructions that a history carries out, in order. -/
def masks (m : Machine σ) (history : List Operation) : List UInt8 :=
  (instructions m history).filterMap Instruction.mask?

theorem masks_append (m : Machine σ) (h k : List Operation) :
    masks m (h ++ k) = masks m h ++ masks (after m h) k := by
  rw [masks, instructions_append, List.filterMap_append]
  rfl

theorem masks_singleton (hsp : m.state.sp.toNat ≤ 16) (operation : Operation) :
    masks m [operation] = (operation.mask? m).toList := by
  rw [masks, instructions, collect, collect, List.append_nil]
  cases hreply : (operation.apply m).1 with
  | error stop =>
    cases stop with
    | fault fault =>
      rw [mask?_of_fault hsp hreply]
      rfl
    | crash => exact absurd hreply (apply_ne_crash hsp operation)
  | ok reply =>
    rw [mask?, performed]
    cases operation.instruction? m with
    | none => rfl
    | some instruction => cases instruction <;> rfl

theorem masks_cons (hsp : m.state.sp.toNat ≤ 16) (operation : Operation) (rest : List Operation) :
    masks m (operation :: rest) =
      (operation.mask? m).toList ++ masks (operation.apply m).2 rest := by
  rw [← masks_singleton hsp]
  exact masks_append m [operation] rest

/-- A history moves the source on by one byte for each mask. -/
theorem source_after_masks (hsp : m.state.sp.toNat ≤ 16) (history : List Operation) :
    (after m history).source = RandomSource.drop m.source (masks m history).length := by
  have hchance : Instruction.usesChance = fun instruction => instruction.mask?.isSome :=
    funext Instruction.usesChance_eq_isSome
  rw [source_after hsp, masks, List.length_filterMap_eq_countP, hchance]

theorem history_withSource (hsp : m.state.sp.toNat ≤ 16) {history : List Operation}
    (h : AgreeUnder (masks m history) m.source g) :
    replies (m.withSource g) history = replies m history ∧
      after (m.withSource g) history =
        (after m history).withSource (RandomSource.drop g (masks m history).length) := by
  induction history generalizing m g with
  | nil => exact ⟨rfl, rfl⟩
  | cons operation rest ih =>
    have hsource : (operation.apply m).2.source =
        RandomSource.drop m.source (operation.mask? m).toList.length := by
      rw [← masks_singleton hsp]
      exact source_after_masks hsp [operation]
    rw [masks_cons hsp] at h ⊢
    obtain ⟨hfirst, hrest⟩ := h.of_append
    rw [← hsource] at hrest
    have happly := apply_withSource hsp hfirst
    obtain ⟨hreplies, hafter⟩ := ih (sp_le_apply hsp operation) hrest
    constructor
    · rw [replies, replies, happly]
      exact congrArg (_ :: ·) hreplies
    · rw [List.length_append, RandomSource.drop_add]
      simpa only [after, List.foldl_cons, happly] using hafter

/-- A history has the same replies on two machines, which have the same memory and the same
state after every operation of it. -/
def AnswerAlike (m : Machine σ) (m' : Machine τ) (history : List Operation) : Prop :=
  replies m' history = replies m history ∧
    ∀ part, part <+: history →
      (after m' part).state = (after m part).state ∧ (after m' part).memory = (after m part).memory

theorem answerAlike_of_agreeUnder (hsp : m.state.sp.toNat ≤ 16) {history : List Operation}
    (h : AgreeUnder (masks m history) m.source g) : AnswerAlike m (m.withSource g) history := by
  refine ⟨(history_withSource hsp h).1, fun part hpart => ?_⟩
  obtain ⟨rest, rfl⟩ := hpart
  rw [masks_append] at h
  rw [(history_withSource hsp h.of_append.1).2]
  exact ⟨rfl, rfl⟩

/-- Of the bytes of a source only those bits have any influence that the masks of the random
instructions let through, each of its own byte. So if all these masks are zero, every source
does as well as any other. -/
theorem masked_bits_suffice (hsp : m.state.sp.toNat ≤ 16) (history : List Operation) (g : τ) :
    (AgreeUnder (masks m history) m.source g → AnswerAlike m (m.withSource g) history) ∧
      ((∀ mask ∈ masks m history, mask = 0) → AnswerAlike m (m.withSource g) history) := by
  refine ⟨answerAlike_of_agreeUnder hsp, fun hzero => ?_⟩
  exact answerAlike_of_agreeUnder hsp (agreeUnder_of_forall_eq_zero hzero m.source g)

/-- Two random bytes under the masks 0F and F0, with a word between them that is no
instruction. The sources agree on the low half of the first byte and on the high half of the
second, and on neither byte as a whole. -/
theorem masked_bits_suffice_two_halves :
    let m := Machine.ofMemory (Memory.zero.store 0x202 [0xC1, 0xF0]) (Progression.mk 0x35 0)
    let g := Progression.mk 0xA5 0x95
    let history := [execute 0xC00F, execute 0xFFFF, step, reset]
    m.state.sp.toNat ≤ 16 ∧ masks m history = [0x0F, 0xF0] ∧
      AgreeUnder (masks m history) m.source g ∧ AnswerAlike m (m.withSource g) history ∧
      masks m [execute 0xC200] = [0] ∧ AnswerAlike m (m.withSource g) [execute 0xC200] := by
  intro m g history
  have hsp : m.state.sp.toNat ≤ 16 := by decide
  have hmasks : masks m history = [0x0F, 0xF0] := by decide +kernel
  have hzero : masks m [execute 0xC200] = [0] := by decide +kernel
  have hagree : AgreeUnder (masks m history) m.source g := by
    rw [hmasks]
    intro j mask hmask
    match j with
    | 0 =>
      cases hmask
      decide +kernel
    | 1 =>
      cases hmask
      decide +kernel
    | j + 2 => cases hmask
  exact ⟨hsp, hmasks, hagree, (masked_bits_suffice hsp history g).1 hagree, hzero,
    (masked_bits_suffice hsp [execute 0xC200] g).2 (by simp [hzero])⟩

end Operation

end ChipEight
