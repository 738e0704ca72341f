import ChipEight.Proofs.DecodeTable
import ChipEight.Proofs.Moves

/-! Where control goes. The destination of an instruction is a sum of natural
numbers; the program counter takes it modulo 2^16. A machine that is only stepped
never reaches a sum that the modulus changes: a word is fetched at 0xFFE at the
latest, jumps have twelve bits, and every slot of the stack holds the address of a
word that was fetched. A counter that has passed the last word stays there, and
every step then fails. -/

namespace ChipEight

theorem Memory.lt_of_readWord {m : Memory} {address : UInt16} {w : Word}
    (h : m.readWord address = .ok w) : address.toNat + 1 < 4096 := by
  obtain ⟨hi, lo, -, hlo, -⟩ := readWord_eq_ok_iff.mp h
  exact (Vector.getElem?_eq_some_iff.mp hlo).1

namespace State

/-- The address that an instruction goes on to, before it is reduced to 16 bits. -/
def destination (s : State) : Instruction → Nat
  | .jump target | .call target => target.toNat
  | .ret => (s.slot (s.sp - 1)).toNat + 2
  | .skipEqual x value => s.pc.toNat + if s.read x == value then 4 else 2
  | .skipUnequal x value => s.pc.toNat + if s.read x != value then 4 else 2
  | .skipDifferent x y => s.pc.toNat + if s.read x != s.read y then 4 else 2
  | .skipPressed x => s.pc.toNat + if s.pressed (s.read x) = .ok true then 4 else 2
  | .skipReleased x => s.pc.toNat + if s.pressed (s.read x) = .ok false then 4 else 2
  | .clear | .set _ _ | .add _ _ | .copy _ _ | .setIndex _ | .random _ _ | .draw _ _ _
  | .readDelay _ | .setDelay _ | .addIndex _ => s.pc.toNat + 2

variable {memory : Memory} {roll : UInt8} {s t : State} {instruction : Instruction} {w : Word}

theorem toNat_pc_skipIf (condition : Bool) :
    (s.skipIf condition).pc.toNat = (s.pc.toNat + if condition then 4 else 2) % 65536 := by
  rw [skipIf, UInt16.toNat_add]
  split <;> rfl

theorem toNat_pc_of_execute (h : s.execute memory roll instruction = .ok t) :
    t.pc.toNat = s.destination instruction % 65536 := by
  cases instruction with
  | jump target =>
    cases h
    exact (Nat.mod_eq_of_lt target.toNat_lt).symm
  | call target =>
    obtain ⟨-, rfl⟩ := push_eq_ok h
    exact (Nat.mod_eq_of_lt target.toNat_lt).symm
  | ret =>
    obtain ⟨-, rfl⟩ := pop_eq_ok h
    exact UInt16.toNat_add _ _
  | skipEqual x value | skipUnequal x value | skipDifferent x y =>
    cases h
    exact toNat_pc_skipIf _
  | skipPressed x | skipReleased x =>
    obtain ⟨held, hheld, rfl⟩ := map_eq_ok h
    rw [toNat_pc_skipIf, destination, hheld]
    cases held <;> rfl
  | draw x y height =>
    obtain ⟨rows, -, -, rfl⟩ := draw_eq_ok_iff.mp h
    exact UInt16.toNat_add _ _
  | addIndex x =>
    obtain ⟨-, rfl⟩ := addIndex_eq_ok h
    exact UInt16.toNat_add _ _
  | _ =>
    cases h
    exact UInt16.toNat_add _ _

/-- The counter is at most one skip past the last word, and every return address,
in use or not, is that of a word. -/
structure OnCourse (s : State) : Prop where
  pc_le : s.pc.toNat ≤ 0x1002
  slot_le : ∀ k (hk : k < 16), s.stack[k].toNat ≤ 0xFFE

theorem onCourse_initial : initial.OnCourse := by
  refine ⟨by decide, fun k hk => ?_⟩
  simp [initial]

theorem OnCourse.toNat_slot_le (h : s.OnCourse) (k : UInt8) : (s.slot k).toNat ≤ 0xFFE := by
  unfold slot
  by_cases hk : k.toNat < 16
  · rw [Vector.getElem?_eq_getElem hk]
    exact h.slot_le _ hk
  · rw [Vector.getElem?_eq_none (by omega)]
    decide

/-- A word that was fetched leads no further than one skip past the last word. -/
theorem OnCourse.destination_le (h : s.OnCourse) (hfetch : memory.readWord s.pc = .ok w)
    (hdecode : Instruction.decode w = .ok instruction) : s.destination instruction ≤ 0x1002 := by
  have hpc := Memory.lt_of_readWord hfetch
  have hslot := h.toNat_slot_le (s.sp - 1)
  have htarget := w.toNat_target
  obtain ⟨p, -, rfl⟩ := Instruction.exists_fits_of_decode hdecode
  cases p with
  | skipEqual | skipUnequal | skipDifferent | skipPressed | skipReleased =>
    simp only [Pattern.instruction, destination]
    split <;> omega
  | _ =>
    simp only [Pattern.instruction, destination]
    omega

theorem OnCourse.toNat_pc (h : s.OnCourse) (hfetch : memory.readWord s.pc = .ok w)
    (hdecode : Instruction.decode w = .ok instruction)
    (hstate : s.execute memory roll instruction = .ok t) :
    t.pc.toNat = s.destination instruction := by
  have hle := h.destination_le hfetch hdecode
  rw [toNat_pc_of_execute hstate]
  omega

/-- A step writes the stack only with the address that it fetched from. -/
theorem OnCourse.of_execute (h : s.OnCourse) (hfetch : memory.readWord s.pc = .ok w)
    (hdecode : Instruction.decode w = .ok instruction)
    (hstate : s.execute memory roll instruction = .ok t) : t.OnCourse := by
  have hpc := Memory.lt_of_readWord hfetch
  refine ⟨h.toNat_pc hfetch hdecode hstate ▸ h.destination_le hfetch hdecode, fun k hk => ?_⟩
  have hslot := h.slot_le k hk
  cases effect_of_execute hstate with
  | called _ _ hstack _ =>
    simp only [hstack, Vector.getElem_setIfInBounds hk]
    split
    · omega
    · exact hslot
  | neither _ hstack _ | returned _ _ hstack _ | cleared _ hstack _ | drawn _ _ hstack _ =>
    simp only [hstack]
    exact hslot

end State

namespace Operation

variable {σ : Type} [RandomSource σ] {m : Machine σ}

theorem Outcome.onCourse {operation : Operation} {reply : Except Stop Reply} {next : Machine σ}
    (h : operation.Outcome m reply next) (hstepped : ∀ word, operation ≠ .execute word)
    (hm : m.state.OnCourse) : next.state.OnCourse := by
  cases h with
  | stepped hfetch hdecode hstate =>
    obtain ⟨hpc, hslots⟩ := hm.of_execute hfetch hdecode hstate
    exact ⟨hpc, hslots⟩
  | executed => exact absurd rfl (hstepped _)
  | reset => exact State.onCourse_initial
  | failed | loaded | pressed | released | written | taken | kept => exact ⟨hm.pc_le, hm.slot_le⟩

theorem onCourse_after {history : List Operation} (hstepped : ∀ word, execute word ∉ history)
    (hsp : m.state.sp.toNat ≤ 16) (hm : m.state.OnCourse) : (after m history).state.OnCourse := by
  induction history generalizing m with
  | nil => exact hm
  | cons operation rest ih =>
    refine ih (fun word hmem => hstepped word (.tail _ hmem)) (sp_le_apply hsp operation) ?_
    refine (outcome_apply hsp operation).onCourse (fun word heq => ?_) hm
    exact hstepped word (heq ▸ .head _)

/-- A step fails and changes nothing, or it goes exactly where its instruction leads. -/
theorem step_of_onCourse (hsp : m.state.sp.toNat ≤ 16) (hm : m.state.OnCourse) :
    (∃ fault, step.apply m = (.error (.fault fault), m)) ∨
      ∃ word instruction beep next, m.memory.readWord m.state.pc = .ok word ∧
        Instruction.decode word = .ok instruction ∧ step.apply m = (.ok (.stepped beep), next) ∧
        next.state.pc.toNat = m.state.destination instruction ∧
        m.state.destination instruction ≤ 0x1002 := by
  have hstep := outcome_apply hsp step
  generalize step.apply m = result at hstep
  obtain ⟨reply, next⟩ := result
  cases hstep with
  | failed => exact .inl ⟨_, rfl⟩
  | stepped hfetch hdecode hstate =>
    have hpc := hm.toNat_pc hfetch hdecode hstate
    exact .inr ⟨_, _, _, _, hfetch, hdecode, rfl, hpc, hm.destination_le hfetch hdecode⟩

theorem step_past_end (hsp : m.state.sp.toNat ≤ 16) (hpc : 0xFFF ≤ m.state.pc.toNat) :
    step.apply m = (.error (.fault (.addressOutOfRange (max m.state.pc.toNat 4096))), m) := by
  refine apply_of_result_error hsp ?_
  rw [result, Machine.step, Memory.readWord_eq_error_iff.mpr ⟨hpc, rfl⟩]
  rfl

/-- On a machine that is only stepped, loaded, reset and given keys, and whose frames
are taken, no sum that goes into the program counter is changed by its reduction. -/
theorem stepped_never_wraps (memory : Memory) (source : σ) {history : List Operation}
    (hstepped : ∀ word, execute word ∉ history) :
    let m := after (Machine.ofMemory memory source) history
    m.state.pc.toNat ≤ 0x1002 ∧
      (∀ k (hk : k < 16), m.state.stack[k].toNat ≤ 0xFFE) ∧
      ((∃ fault, step.apply m = (.error (.fault fault), m)) ∨
        ∃ word instruction beep next, m.memory.readWord m.state.pc = .ok word ∧
          Instruction.decode word = .ok instruction ∧ step.apply m = (.ok (.stepped beep), next) ∧
          next.state.pc.toNat = m.state.destination instruction ∧
          m.state.destination instruction ≤ 0x1002) ∧
      (0xFFF ≤ m.state.pc.toNat →
        step.apply m =
          (.error (.fault (.addressOutOfRange (max m.state.pc.toNat 4096))), m)) := by
  intro m
  have hstart : (Machine.ofMemory memory source).state.sp.toNat ≤ 16 := Nat.zero_le 16
  have hsp : m.state.sp.toNat ≤ 16 := sp_le_after hstart history
  have hm : m.state.OnCourse := onCourse_after hstepped hstart State.onCourse_initial
  exact ⟨hm.pc_le, hm.slot_le, step_of_onCourse hsp hm, step_past_end hsp⟩

/-- A jump to the last word of memory, where a skip is taken. -/
def brink : Memory := (Memory.zero.store 0x200 [0x1F, 0xFE]).store 0xFFE [0x30, 0x00]

theorem stepped_never_wraps_brink :
    let m := after (Machine.ofMemory brink (Progression.mk 0 0)) [step, step]
    (∀ word, execute word ∉ [step, step]) ∧ m.state.pc.toNat = 0x1002 ∧
      step.apply m = (.error (.fault (.addressOutOfRange 0x1002)), m) := by
  have hstepped : ∀ word, execute word ∉ [step, step] := by simp
  have hpc : (after (Machine.ofMemory brink (Progression.mk 0 0)) [step, step]).state.pc.toNat =
    0x1002 := by decide +kernel
  obtain ⟨-, -, -, hend⟩ := stepped_never_wraps brink (Progression.mk 0 0) hstepped
  generalize after (Machine.ofMemory brink (Progression.mk 0 0)) [step, step] = m at hpc hend ⊢
  rw [hpc] at hend
  exact ⟨hstepped, hpc, hend (by decide)⟩

end Operation

end ChipEight
