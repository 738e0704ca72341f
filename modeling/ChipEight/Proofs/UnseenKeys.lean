import ChipEight.Proofs.Drive
import ChipEight.Proofs.KeySkips

/-! Keys that no step looks at. Of the instructions only the two skips on a key depend on the
keys, and each of them on the one key that its register names. So as long as no step looks at a
key, it makes no difference to the steps, those that fail among them, whether the key is written
before them or behind them. -/

namespace ChipEight

/-- The register that names the key an instruction looks at. -/
def Instruction.keyRegister? : Instruction → Option Nat
  | skipPressed x | skipReleased x => some x
  | _ => none

theorem Instruction.fits_of_keyRegister {w : Word} {instruction : Instruction} {x : Nat}
    (hdecode : decode w = .ok instruction) (hx : instruction.keyRegister? = some x) :
    (w.Fits .skipPressed ∨ w.Fits .skipReleased) ∧ x = w.x := by
  obtain ⟨p, hp, rfl⟩ := exists_fits_of_decode hdecode
  cases p with
  | skipPressed => exact ⟨.inl hp, (Option.some.inj hx).symm⟩
  | skipReleased => exact ⟨.inr hp, (Option.some.inj hx).symm⟩
  | _ => cases hx

namespace State

variable {memory : Memory} {roll : UInt8} {s : State} {key : Fin 16}

theorem pressed_writeKey_of_ne {other : UInt8} (h : other.toNat ≠ key.val) (value : UInt8) :
    (s.writeKey key value).pressed other = s.pressed other := by
  unfold pressed writeKey
  split
  · rw [Vector.getElem_setIfInBounds_ne _ h.symm]
  · rfl

/-- An instruction that does not look at a key does the same whatever the status of the key. -/
theorem execute_writeKey {instruction : Instruction}
    (h : ∀ x ∈ instruction.keyRegister?, (s.read x).toNat ≠ key.val) (value : UInt8) :
    (s.writeKey key value).execute memory roll instruction =
      (s.execute memory roll instruction).map fun t => t.writeKey key value := by
  cases instruction with
  | skipPressed x | skipReleased x =>
    have hpressed : (s.writeKey key value).pressed ((s.writeKey key value).read x) =
        s.pressed (s.read x) := pressed_writeKey_of_ne (h x rfl) value
    simp only [execute, hpressed]
    cases s.pressed (s.read x) <;> rfl
  | ret | call target | addIndex x =>
    simp only [execute, pop, push, apply_ite (Except.map _)]
    rfl
  | draw x y height =>
    simp only [execute, writeKey]
    cases memory.readBytes s.i height.toNat with
    | error fault => rfl
    | ok rows =>
      simp only [draw, read]
      cases s.frame.draw rows _ _ <;> rfl
  -- The others neither check anything nor read a key.
  | _ => rfl

end State

namespace Machine

variable {σ : Type} {m : Machine σ} {key : Fin 16}

/-- The step of `m` looks at a key: its word skips by the key in VX, and VX names this one. -/
def LooksAt (m : Machine σ) (key : Fin 16) : Prop :=
  ∃ w, m.memory.readWord m.state.pc = .ok w ∧ (w.Fits .skipPressed ∨ w.Fits .skipReleased) ∧
    (m.state.read w.x).toNat = key.val

variable [RandomSource σ]

theorem execute_writeKey {w : Word}
    (h : w.Fits .skipPressed ∨ w.Fits .skipReleased → (m.state.read w.x).toNat ≠ key.val)
    (value : UInt8) :
    (m.writeKey key value).execute w = (m.execute w).map fun next => next.writeKey key value := by
  simp only [execute]
  cases hdecode : Instruction.decode w with
  | error fault => rfl
  | ok instruction =>
    have hunseen : ∀ x ∈ instruction.keyRegister?, (m.state.read x).toNat ≠ key.val := by
      intro x hx
      obtain ⟨hw, rfl⟩ := Instruction.fits_of_keyRegister hdecode hx
      exact h hw
    simp only [perform, writeKey, State.execute_writeKey hunseen]
    cases m.state.execute m.memory (RandomSource.next m.source).1 instruction <;> rfl

theorem step_writeKey (h : ¬ m.LooksAt key) (value : UInt8) :
    (m.writeKey key value).step =
      m.step.map fun pair => (pair.1, pair.2.writeKey key value) := by
  have hread : (m.writeKey key value).memory.readWord (m.writeKey key value).state.pc =
      m.memory.readWord m.state.pc := rfl
  simp only [step, hread]
  cases hfetch : m.memory.readWord m.state.pc with
  | error fault => rfl
  | ok w =>
    have hunseen : w.Fits .skipPressed ∨ w.Fits .skipReleased →
        (m.state.read w.x).toNat ≠ key.val := fun hw hkey => h ⟨w, hfetch, hw, hkey⟩
    simp only [execute_writeKey hunseen]
    cases m.execute w <;> rfl

end Machine

namespace Operation

variable {σ : Type} [RandomSource σ] {m : Machine σ} {key : Fin 16} {value : UInt8} {n : Nat}

/-- None of the first `n` steps looks at a key. -/
def Unseen (m : Machine σ) (key : Fin 16) (n : Nat) : Prop :=
  ∀ k < n, ¬ (after m (steps k)).LooksAt key

theorem unnoticed_writeKey (hsp : m.state.sp.toNat ≤ 16) (h : Unseen m key n) (value : UInt8) :
    Unnoticed (fun m => m.writeKey key value) m n :=
  unnoticed_of_step hsp (fun _ => rfl) fun k hk => Machine.step_writeKey (h k hk) value

/-- A key may be pressed, released or written before steps that do not look at it or behind
them: the steps are answered alike, and the machine in the end is the same. -/
theorem key_write_commutes_with_steps (hsp : m.state.sp.toNat ≤ 16) {event : Operation}
    (hevent : event.stores key = some value) (hunseen : Unseen m key n) :
    replies m (event :: steps n) = .ok .done :: replies m (steps n) ∧
      replies m (steps n ++ [event]) = replies m (steps n) ++ [.ok .done] ∧
      after m (event :: steps n) = after m (steps n ++ [event]) := by
  have happly : ∀ m : Machine σ, m.state.sp.toNat ≤ 16 →
      event.apply m = (.ok .done, m.writeKey key value) :=
    fun m hsp => apply_of_result_ok hsp (result_of_stores hevent m)
  have hlast := happly _ (sp_le_after hsp (steps n))
  have hunnoticed := unnoticed_writeKey hsp hunseen value
  refine ⟨?_, ?_, ?_⟩
  · rw [replies, happly m hsp]
    exact congrArg (_ :: ·) hunnoticed.replies_steps
  · rw [replies_concat, hlast]
  · rw [after_concat, hlast, after, List.foldl_cons, happly m hsp]
    exact hunnoticed.after_steps (Nat.le_refl n)

/-- Two skips on key 4, and then a word that has no instruction. Key 5 may be pressed before
all this or behind it. -/
theorem key_write_commutes_with_steps_other_key :
    let image : List UInt8 := [0x63, 0x04, 0xE3, 0x9E, 0xE3, 0xA1]
    let m := Machine.ofMemory (Memory.zero.store 0x200 image) (Progression.mk 0 0)
    m.state.sp.toNat ≤ 16 ∧ (press 5).stores 5 = some 1 ∧
      Unseen m 5 5 ∧ (after m (steps 1)).LooksAt 4 ∧
      replies m (press 5 :: steps 5) = [.ok .done, .ok (.stepped false), .ok (.stepped false),
        .ok (.stepped false), .error (.fault (.unknownWord 0)),
        .error (.fault (.unknownWord 0))] ∧
      after m (press 5 :: steps 5) = after m (steps 5 ++ [press 5]) := by
  intro image m
  have hsp : m.state.sp.toNat ≤ 16 := by decide
  have hevent : (press 5).stores 5 = some 1 := rfl
  have hregisters : ∀ k < 5, ∀ x < 16, ((after m (steps k)).state.read x).toNat ≠ 5 := by
    decide +kernel
  have hunseen : Unseen m 5 5 := by
    rintro k hk ⟨w, -, -, hkey⟩
    exact hregisters k hk w.x w.x_lt hkey
  have hseen : (after m (steps 1)).LooksAt 4 :=
    ⟨0xE39E, by decide +kernel, .inl ⟨rfl, trivial, rfl, rfl⟩, by decide +kernel⟩
  have hreplies : replies m (steps 5) = [.ok (.stepped false), .ok (.stepped false),
      .ok (.stepped false), .error (.fault (.unknownWord 0)),
      .error (.fault (.unknownWord 0))] := by
    decide +kernel
  obtain ⟨hbefore, -, hafter⟩ := key_write_commutes_with_steps hsp hevent hunseen
  rw [hreplies] at hbefore
  exact ⟨hsp, hevent, hunseen, hseen, hbefore, hafter⟩

end Operation

end ChipEight
