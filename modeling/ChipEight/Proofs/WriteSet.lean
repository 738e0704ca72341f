import ChipEight.Proofs.ProgramCounter

/-! What a word can write. A part of the state is written by the words that are listed for
it and by no others; no word writes the memory, the sound timer or a key. The program
counter stands apart, since every instruction writes it: it goes where the instruction
leads. -/

namespace ChipEight

/-- The word fits one of these patterns. -/
def Word.FitsAny (w : Word) (ps : List Pattern) : Prop := ∃ p ∈ ps, w.Fits p

namespace State

/-- A part of the state other than the program counter. -/
inductive Part where
  | register (x : Nat)
  | index
  /-- The stack pointer. -/
  | depth
  | slot (k : Nat)
  | delay
  | sound
  | frame
  | redraw
  | keys
  deriving DecidableEq

/-- The part is the same in both states. -/
def Part.Same (s t : State) : Part → Prop
  | register x => t.v[x]? = s.v[x]?
  | index => t.i = s.i
  | depth => t.sp = s.sp
  | slot k => t.stack[k]? = s.stack[k]?
  | delay => t.delay = s.delay
  | sound => t.sound = s.sound
  | frame => t.frame = s.frame
  | redraw => t.redraw = s.redraw
  | keys => t.keys = s.keys

/-- The parts of `s` that a word can write, each with the patterns of the words that do. -/
inductive Writes (s : State) (w : Word) : Part → Prop where
  | register (hw : w.FitsAny [.set, .add, .copy, .random, .readDelay]) : Writes s w (.register w.x)
  | flag (hw : w.FitsAny [.add, .draw]) : Writes s w (.register Register.flag)
  | index (hw : w.FitsAny [.setIndex, .addIndex]) : Writes s w .index
  | depth (hw : w.FitsAny [.call, .ret]) : Writes s w .depth
  | slot (hw : w.Fits .call) : Writes s w (.slot s.sp.toNat)
  | delay (hw : w.Fits .setDelay) : Writes s w .delay
  | frame (hw : w.FitsAny [.clear, .draw]) : Writes s w .frame
  | redraw (hw : w.FitsAny [.clear, .draw]) : Writes s w .redraw

variable {memory : Memory} {roll : UInt8} {s t u : State} {w : Word} {p : Pattern} {part : Part}

theorem Part.Same.trans (h : part.Same s t) (h' : part.Same t u) : part.Same s u := by
  cases part <;> exact Eq.trans h' h

theorem Part.same_write {x : Nat} (value : UInt8) (h : part ≠ .register x) :
    part.Same s (s.write x value) := by
  cases part with
  | register y =>
    have hne : x ≠ y := fun heq => h (heq ▸ rfl)
    exact Vector.getElem?_setIfInBounds_ne hne
  | _ => rfl

theorem Part.same_advance (part : Part) (s : State) : part.Same s s.advance := by
  cases part <;> rfl

theorem Part.same_skipIf (part : Part) (s : State) (condition : Bool) :
    part.Same s (s.skipIf condition) := by
  cases part <;> rfl

/-- A word that is executed leaves a part as it was, or is one of those that write it. -/
theorem same_or_writes (hw : w.Fits p) (h : s.execute memory roll (p.instruction w) = .ok t)
    (part : Part) : part.Same s t ∨ s.Writes w part := by
  -- One case for each row of the table. A part that the row does not write is the same field
  -- of the updated state, so it is left by computation.
  cases p with
  | clear =>
    cases h
    cases part with
    | frame => exact .inr (.frame ⟨_, by decide, hw⟩)
    | redraw => exact .inr (.redraw ⟨_, by decide, hw⟩)
    | _ => exact .inl rfl
  | ret =>
    obtain ⟨-, rfl⟩ := pop_eq_ok h
    cases part with
    | depth => exact .inr (.depth ⟨_, by decide, hw⟩)
    | _ => exact .inl rfl
  | jump =>
    cases h
    exact .inl (by cases part <;> rfl)
  | call =>
    obtain ⟨-, rfl⟩ := push_eq_ok h
    cases part with
    | depth => exact .inr (.depth ⟨_, by decide, hw⟩)
    | slot k =>
      by_cases hk : k = s.sp.toNat
      · subst hk
        exact .inr (.slot hw)
      · exact .inl (Vector.getElem?_setIfInBounds_ne (Ne.symm hk))
    | _ => exact .inl rfl
  | skipEqual | skipUnequal | skipDifferent =>
    cases h
    exact .inl (part.same_skipIf s _)
  | skipPressed | skipReleased =>
    obtain ⟨held, -, rfl⟩ := map_eq_ok h
    exact .inl (part.same_skipIf s _)
  | set | copy | random | readDelay =>
    cases h
    by_cases hx : part = .register w.x
    · subst hx
      exact .inr (.register ⟨_, by decide, hw⟩)
    · exact .inl ((Part.same_write _ hx).trans (part.same_advance _))
  | add =>
    cases h
    by_cases hx : part = .register w.x
    · subst hx
      exact .inr (.register ⟨_, by decide, hw⟩)
    · by_cases hflag : part = .register Register.flag
      · subst hflag
        exact .inr (.flag ⟨_, by decide, hw⟩)
      · exact .inl ((Part.same_write _ hx).trans
          ((Part.same_write _ hflag).trans (part.same_advance _)))
  | setIndex =>
    cases h
    cases part with
    | index => exact .inr (.index ⟨_, by decide, hw⟩)
    | _ => exact .inl rfl
  | addIndex =>
    obtain ⟨-, rfl⟩ := addIndex_eq_ok h
    cases part with
    | index => exact .inr (.index ⟨_, by decide, hw⟩)
    | _ => exact .inl rfl
  | draw =>
    obtain ⟨rows, -, -, rfl⟩ := draw_eq_ok_iff.mp h
    cases part with
    | frame => exact .inr (.frame ⟨_, by decide, hw⟩)
    | redraw => exact .inr (.redraw ⟨_, by decide, hw⟩)
    | register x =>
      by_cases hflag : Part.register x = .register Register.flag
      · rw [hflag]
        exact .inr (.flag ⟨_, by decide, hw⟩)
      · exact .inl (Part.same_write _ hflag)
    | _ => exact .inl rfl
  | setDelay =>
    cases h
    cases part with
    | delay => exact .inr (.delay hw)
    | _ => exact .inl rfl

/-- A jump and a call lead to the address that their low twelve bits name. -/
theorem toNat_pc_of_target (hp : p = .jump ∨ p = .call)
    (h : s.execute memory roll (p.instruction w) = .ok t) : t.pc.toNat = w.toNat % 4096 := by
  have hpc := toNat_pc_of_execute h
  have htarget := w.toNat_target
  rcases hp with rfl | rfl
  all_goals
    simp only [Pattern.instruction, destination] at hpc
    omega

/-- A return leads behind the call that the topmost slot in use has kept. -/
theorem toNat_pc_of_pop (hsp : s.sp.toNat ≤ 16) (h : s.pop = .ok t) :
    ∃ address, s.stack[s.sp.toNat - 1]? = some address ∧
      t.pc.toNat = (address.toNat + 2) % 65536 := by
  obtain ⟨hne, rfl⟩ := pop_eq_ok h
  have hpred := toNat_sub_one hne
  have hpos := toNat_pos_of_ne_zero hne
  have htop : s.stack[s.sp.toNat - 1]? = some s.stack[s.sp.toNat - 1] :=
    Vector.getElem?_eq_getElem (by omega)
  refine ⟨_, htop, ?_⟩
  show (s.slot (s.sp - 1) + 2).toNat = _
  rw [UInt16.toNat_add, slot, hpred, htop]
  rfl

end State

namespace Operation

variable {σ : Type} [RandomSource σ] {m next : Machine σ}

theorem source_behind_of_not_fits {w : Word} {instruction : Instruction} {state : State}
    (hdecode : Instruction.decode w = .ok instruction) (hw : ¬ w.Fits .random) :
    (m.behind instruction state).source = m.source := by
  obtain ⟨p, hp, rfl⟩ := Instruction.exists_fits_of_decode hdecode
  cases p with
  | random => exact absurd hp hw
  | _ => rfl

/-- A word that is executed writes only the parts that are listed for words of its pattern,
and of the stack at most the slot of a call. The program counter goes where the instruction
leads from the state before, modulo 2^16: a jump or a call to the low twelve bits of its word,
a return behind the call in the topmost slot. -/
theorem executed_word_keeps_to_writes (hsp : m.state.sp.toNat ≤ 16) {w : Word} {reply : Reply}
    (succeeded : (execute w).apply m = (.ok reply, next)) :
    next.memory = m.memory ∧ (¬ w.Fits .random → next.source = m.source) ∧
      (∀ part : State.Part, part.Same m.state next.state ∨ m.state.Writes w part) ∧
      (w.Fits .call → next.state.sp.toNat = m.state.sp.toNat + 1) ∧
      (w.Fits .ret → next.state.sp.toNat + 1 = m.state.sp.toNat) ∧
      (w.Fits .jump ∨ w.Fits .call → next.state.pc.toNat = w.toNat % 4096) ∧
      (w.Fits .ret → ∃ address, m.state.stack[m.state.sp.toNat - 1]? = some address ∧
        next.state.pc.toNat = (address.toNat + 2) % 65536) ∧
      ∃ p, w.Fits p ∧ next.state.pc.toNat = m.state.destination (p.instruction w) % 65536 := by
  have hout := outcome_apply hsp (execute w)
  rw [succeeded] at hout
  cases hout with
  | executed hdecode hstate =>
    refine ⟨rfl, source_behind_of_not_fits hdecode, ?_, fun hcall => ?_, fun hret => ?_,
      fun htarget => ?_, fun hret => ?_, ?_⟩
    · obtain ⟨p, hp, rfl⟩ := Instruction.exists_fits_of_decode hdecode
      exact State.same_or_writes hp hstate
    · obtain rfl := Instruction.eq_of_fits hdecode hcall
      obtain ⟨hlt, rfl⟩ := State.push_eq_ok hstate
      exact State.toNat_add_one (Nat.lt_of_lt_of_le hlt (by decide))
    · obtain rfl := Instruction.eq_of_fits hdecode hret
      obtain ⟨hne, rfl⟩ := State.pop_eq_ok hstate
      have hpred := State.toNat_sub_one hne
      have hpos := State.toNat_pos_of_ne_zero hne
      show (m.state.sp - 1).toNat + 1 = m.state.sp.toNat
      omega
    · rcases htarget with hjump | hcall
      · obtain rfl := Instruction.eq_of_fits hdecode hjump
        exact State.toNat_pc_of_target (.inl rfl) hstate
      · obtain rfl := Instruction.eq_of_fits hdecode hcall
        exact State.toNat_pc_of_target (.inr rfl) hstate
    · obtain rfl := Instruction.eq_of_fits hdecode hret
      exact State.toNat_pc_of_pop hsp hstate
    · obtain ⟨p, hp, rfl⟩ := Instruction.exists_fits_of_decode hdecode
      exact ⟨p, hp, State.toNat_pc_of_execute hstate⟩

/-- The sixteenth of sixteen nested calls takes the last slot and leaves the others. -/
theorem executed_word_keeps_to_writes_deepest_call :
    let m : Machine Progression :=
      { memory := Memory.zero
        state := { State.initial with sp := 15, pc := 0x234 }
        source := { value := 0, increment := 0 } }
    let next := ((execute 0x2ABC).apply m).2
    m.state.sp.toNat ≤ 16 ∧ (execute 0x2ABC).apply m = (.ok .done, next) ∧
      next.memory = m.memory ∧ next.source = m.source ∧ next.state.sp.toNat = 16 ∧
      next.state.pc.toNat = 0xABC ∧
      ∀ k ≠ 15, next.state.stack[k]? = m.state.stack[k]? := by
  intro m next
  have hsp : m.state.sp.toNat ≤ 16 := by decide
  have hreply : ((execute 0x2ABC).apply m).1 = .ok .done := by decide +kernel
  have succeeded : (execute 0x2ABC).apply m = (.ok .done, next) := Prod.ext hreply rfl
  have hcall : Word.Fits 0x2ABC .call := ⟨rfl, trivial, trivial, trivial⟩
  have hrandom : ¬ Word.Fits 0x2ABC .random := by
    intro hw
    have hnibble : Word.nibble 0x2ABC 3 = 0xC := hw.1
    exact absurd hnibble (by decide)
  obtain ⟨hmemory, hsource, hparts, hdepth, -, htarget, -⟩ :=
    executed_word_keeps_to_writes hsp succeeded
  refine ⟨hsp, succeeded, hmemory, hsource hrandom, hdepth hcall, htarget (.inr hcall),
    fun k hk => ?_⟩
  refine (hparts (.slot k)).resolve_right fun hwrites => ?_
  cases hwrites
  exact hk rfl

end Operation

end ChipEight
