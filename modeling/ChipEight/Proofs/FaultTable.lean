import ChipEight.Proofs.Agreement
import ChipEight.Proofs.DecodeTable

/-! The table of faults. For every word, and every machine whose stack pointer is
in range, it says when the word fails and with which fault; a step fails in its
fetch or as the word it fetched. A fault of a sprite names the first lit pixel
off the screen, in the order of rows from the top and bits from the left. -/

namespace ChipEight

theorem map_eq_error_iff {α β : Type} {result : Except Fault α} {f : α → β} {fault : Fault} :
    result.map f = .error fault ↔ result = .error fault := by
  cases result with
  | error other => simp [Except.map]
  | ok value => simp [Except.map]

namespace Sprite

/-- What is found in a list in its order is the first that there is. -/
theorem find?_positions_eq_some_iff {rows : List UInt8} {x y : Nat} {test : Position → Bool}
    {p : Position} :
    (positions rows x y).find? test = some p ↔
      p ∈ positions rows x y ∧ test p = true ∧
        ∀ q ∈ positions rows x y, Before q p → test q = false := by
  have hsorted := positions_pairwise rows x y
  generalize positions rows x y = lit at hsorted
  constructor
  · intro h
    refine ⟨List.mem_of_find?_eq_some h, List.find?_some h, fun q hq hbefore => ?_⟩
    obtain ⟨-, front, back, rfl, hfront⟩ := List.find?_eq_some_iff_append.mp h
    rw [List.pairwise_append, List.pairwise_cons] at hsorted
    rcases List.mem_append.mp hq with hq | hq
    · simpa using hfront q hq
    · exfalso
      unfold Before at hbefore
      rcases List.mem_cons.mp hq with rfl | hq
      · omega
      · have hafter := hsorted.2.1.1 q hq
        unfold Before at hafter
        omega
  · intro h
    obtain ⟨hmem, htest, hfirst⟩ := h
    obtain ⟨front, back, rfl⟩ := List.append_of_mem hmem
    rw [List.pairwise_append] at hsorted
    refine List.find?_eq_some_iff_append.mpr ⟨htest, front, back, rfl, fun q hq => ?_⟩
    rw [hfirst q (List.mem_append_left _ hq) (hsorted.2.2 q hq p List.mem_cons_self)]
    rfl

end Sprite

namespace State

variable {memory : Memory} {s : State} {fault : Fault}

theorem pop_eq_error_iff : s.pop = .error fault ↔ s.sp = 0 ∧ fault = .stackEmpty := by
  unfold pop
  split
  · rename_i h
    simp [h, eq_comm]
  · rename_i h
    simp [h]

theorem push_eq_error_iff {target : UInt16} :
    s.push target = .error fault ↔ 16 ≤ s.sp.toNat ∧ fault = .stackFull := by
  unfold push
  split
  · rename_i h
    simp [Nat.not_le.mpr h]
  · rename_i h
    simp [Nat.not_lt.mp h, eq_comm]

theorem pressed_eq_error_iff {key : UInt8} :
    s.pressed key = .error fault ↔ 15 < key.toNat ∧ fault = .noSuchKey key := by
  unfold pressed
  split
  · rename_i h
    simp
    omega
  · rename_i h
    have hkey : 15 < key.toNat := by omega
    simp [hkey, eq_comm]

theorem addIndex_eq_error_iff {roll : UInt8} {x : Nat} :
    s.execute memory roll (.addIndex x) = .error fault ↔
      65535 < s.i.toNat + (s.read x).toNat ∧ fault = .indexOverflow := by
  simp only [execute]
  split
  · rename_i h
    simp
    omega
  · rename_i h
    have hi : 65535 < s.i.toNat + (s.read x).toNat := by omega
    simp [hi, eq_comm]

/-- The bit of the sprite drawn by `w`, counted from its top left corner, is set. -/
def Lit (memory : Memory) (s : State) (w : Word) (row bit : Nat) : Prop :=
  row < w.height.toNat ∧ bit < 8 ∧
    ∃ byte, memory[s.i.toNat + row]? = some byte ∧ byte.toNat.testBit (7 - bit) = true

/-- Where the bit of the sprite drawn by `w` falls, on the screen or off it. -/
def place (s : State) (w : Word) (row bit : Nat) : Position :=
  ⟨(s.read w.x).toNat + bit, (s.read w.y).toNat + row⟩

theorem mem_positions_iff {w : Word} {rows : List UInt8} {p : Position}
    (hrows : memory.readBytes s.i w.height.toNat = .ok rows) :
    p ∈ Sprite.positions rows (s.read w.x).toNat (s.read w.y).toNat ↔
      ∃ row bit, Lit memory s w row bit ∧ p = s.place w row bit := by
  rw [Sprite.mem_positions]
  constructor
  · intro h
    obtain ⟨hy, hlo, hhi, byte, hbyte, hset⟩ := h
    rw [Memory.getElem?_of_readBytes hrows] at hbyte
    split at hbyte
    · rename_i hrow
      refine ⟨_, p.x - (s.read w.x).toNat, ⟨hrow, by omega, byte, hbyte, hset⟩, ?_⟩
      unfold place
      cases p
      simp only [Position.mk.injEq]
      dsimp only at hy hlo
      omega
    · cases hbyte
  · intro h
    obtain ⟨row, bit, ⟨hrow, hbit, byte, hbyte, hset⟩, rfl⟩ := h
    refine ⟨Nat.le_add_right _ _, Nat.le_add_right _ _, Nat.add_lt_add_left hbit _, byte, ?_, ?_⟩
    · rw [Memory.getElem?_of_readBytes hrows, place, Nat.add_sub_cancel_left, if_pos hrow]
      exact hbyte
    · rw [place, Nat.add_sub_cancel_left]
      exact hset

/-- The first set bit of the sprite drawn by `w` that falls off the screen. -/
def FirstOff (memory : Memory) (s : State) (w : Word) (row bit : Nat) : Prop :=
  Lit memory s w row bit ∧ ¬ (s.place w row bit).OnScreen ∧
    ∀ row' bit', Lit memory s w row' bit' → row' < row ∨ row' = row ∧ bit' < bit →
      (s.place w row' bit').OnScreen

theorem before_place_iff {w : Word} {row bit row' bit' : Nat} :
    Sprite.Before (s.place w row' bit') (s.place w row bit) ↔
      row' < row ∨ row' = row ∧ bit' < bit := by
  simp only [Sprite.Before, place]
  omega

theorem find?_off_iff {w : Word} {rows : List UInt8} {p : Position}
    (hrows : memory.readBytes s.i w.height.toNat = .ok rows) :
    (Sprite.positions rows (s.read w.x).toNat (s.read w.y).toNat).find?
        (fun p => !decide p.OnScreen) = some p ↔
      ∃ row bit, FirstOff memory s w row bit ∧ p = s.place w row bit := by
  rw [Sprite.find?_positions_eq_some_iff, mem_positions_iff hrows]
  constructor
  · intro h
    obtain ⟨⟨row, bit, hlit, rfl⟩, hoff, hfirst⟩ := h
    refine ⟨row, bit, ⟨hlit, by simpa using hoff, fun row' bit' hlit' hbefore => ?_⟩, rfl⟩
    have hmem := (mem_positions_iff hrows).mpr ⟨row', bit', hlit', rfl⟩
    simpa using hfirst _ hmem (before_place_iff.mpr hbefore)
  · intro h
    obtain ⟨row, bit, ⟨hlit, hoff, hfirst⟩, rfl⟩ := h
    refine ⟨⟨row, bit, hlit, rfl⟩, by simpa using hoff, fun q hq hbefore => ?_⟩
    obtain ⟨row', bit', hlit', rfl⟩ := (mem_positions_iff hrows).mp hq
    simpa using hfirst row' bit' hlit' (before_place_iff.mp hbefore)

theorem draw_eq_error_iff {w : Word} {roll : UInt8} :
    s.execute memory roll (.draw w.x w.y w.height) = .error fault ↔
      (0 < w.height.toNat ∧ 4096 < s.i.toNat + w.height.toNat ∧
        fault = .addressOutOfRange (max s.i.toNat 4096)) ∨
      (¬ (0 < w.height.toNat ∧ 4096 < s.i.toNat + w.height.toNat) ∧
        ∃ row bit, FirstOff memory s w row bit ∧
          fault = .pixelOffScreen (s.place w row bit).x (s.place w row bit).y) := by
  simp only [execute]
  cases hrows : memory.readBytes s.i w.height.toNat with
  | error other =>
    obtain ⟨hpos, hlt, rfl⟩ := Memory.readBytes_eq_error_iff.mp hrows
    simp [hpos, hlt, eq_comm]
  | ok rows =>
    have hfits : ¬ (0 < w.height.toNat ∧ 4096 < s.i.toNat + w.height.toNat) := by
      intro h
      obtain ⟨hpos, hlt⟩ := h
      rw [Memory.readBytes_eq_error_iff.mpr ⟨hpos, hlt, rfl⟩] at hrows
      cases hrows
    have hleft : ¬ (0 < w.height.toNat ∧ 4096 < s.i.toNat + w.height.toNat ∧
        fault = .addressOutOfRange (max s.i.toNat 4096)) := fun h => hfits ⟨h.1, h.2.1⟩
    dsimp only
    rw [draw.eq_def, map_eq_error_iff, Frame.draw_eq_error_iff, or_iff_right hleft,
      and_iff_right hfits]
    constructor
    · intro h
      obtain ⟨p, hp, rfl⟩ := h
      obtain ⟨row, bit, hfirst, rfl⟩ := (find?_off_iff hrows).mp hp
      exact ⟨row, bit, hfirst, rfl⟩
    · intro h
      obtain ⟨row, bit, hfirst, rfl⟩ := h
      exact ⟨_, (find?_off_iff hrows).mpr ⟨row, bit, hfirst, rfl⟩, rfl⟩

end State

/-- The table. Each row gives a word, what must hold of the machine, and the fault. -/
inductive Machine.Faults {σ : Type} (m : Machine σ) (w : Word) : Fault → Prop where
  | unknownWord (hw : ∀ p, ¬ w.Fits p) : Faults m w (.unknownWord w)
  | stackEmpty (hw : w.Fits .ret) (hsp : m.state.sp = 0) : Faults m w .stackEmpty
  | stackFull (hw : w.Fits .call) (hsp : m.state.sp.toNat = 16) : Faults m w .stackFull
  | noSuchKey (hw : w.Fits .skipPressed ∨ w.Fits .skipReleased)
      (hkey : 15 < (m.state.read w.x).toNat) : Faults m w (.noSuchKey (m.state.read w.x))
  | indexOverflow (hw : w.Fits .addIndex)
      (hi : 65535 < m.state.i.toNat + (m.state.read w.x).toNat) : Faults m w .indexOverflow
  | addressOutOfRange (hw : w.Fits .draw) (hheight : 0 < w.height.toNat)
      (hi : 4096 < m.state.i.toNat + w.height.toNat) :
      Faults m w (.addressOutOfRange (max m.state.i.toNat 4096))
  | pixelOffScreen (hw : w.Fits .draw)
      (hrows : ¬ (0 < w.height.toNat ∧ 4096 < m.state.i.toNat + w.height.toNat)) {row bit : Nat}
      (hfirst : m.state.FirstOff m.memory w row bit) :
      Faults m w (.pixelOffScreen (m.state.place w row bit).x (m.state.place w row bit).y)

namespace Machine

variable {σ : Type} [RandomSource σ] {m : Machine σ} {w : Word} {fault : Fault}

theorem execute_eq_error_iff_of_fits {p : Pattern} (hp : w.Fits p) :
    m.execute w = .error fault ↔
      m.state.execute m.memory (RandomSource.next m.source).1 (p.instruction w) =
        .error fault := by
  simp only [execute, Instruction.decode_of_fits hp, perform, map_eq_error_iff]

theorem faults_of_execute (hsp : m.state.sp.toNat ≤ 16) (h : m.execute w = .error fault) :
    m.Faults w fault := by
  by_cases hnone : ∀ p, ¬ w.Fits p
  · have hdecode := Instruction.decode_eq_error_iff.mpr ⟨rfl, hnone⟩
    rw [execute, hdecode] at h
    cases h
    exact .unknownWord hnone
  · obtain ⟨p, hp⟩ := Classical.not_forall_not.mp hnone
    rw [execute_eq_error_iff_of_fits hp] at h
    cases p with
    | ret =>
      obtain ⟨hempty, rfl⟩ := State.pop_eq_error_iff.mp h
      exact .stackEmpty hp hempty
    | call =>
      obtain ⟨hfull, rfl⟩ := State.push_eq_error_iff.mp h
      exact .stackFull hp (by omega)
    | skipPressed =>
      obtain ⟨hkey, rfl⟩ := State.pressed_eq_error_iff.mp (map_eq_error_iff.mp h)
      exact .noSuchKey (.inl hp) hkey
    | skipReleased =>
      obtain ⟨hkey, rfl⟩ := State.pressed_eq_error_iff.mp (map_eq_error_iff.mp h)
      exact .noSuchKey (.inr hp) hkey
    | addIndex =>
      obtain ⟨hi, rfl⟩ := State.addIndex_eq_error_iff.mp h
      exact .indexOverflow hp hi
    | draw =>
      rcases State.draw_eq_error_iff.mp h with ⟨hpos, hi, rfl⟩ | ⟨hrows, row, bit, hfirst, rfl⟩
      · exact .addressOutOfRange hp hpos hi
      · exact .pixelOffScreen hp hrows hfirst
    | _ => cases h

theorem execute_of_faults (h : m.Faults w fault) : m.execute w = .error fault := by
  cases h with
  | unknownWord hw => rw [execute, Instruction.decode_eq_error_iff.mpr ⟨rfl, hw⟩]
  | stackEmpty hw hsp =>
    rw [execute_eq_error_iff_of_fits hw]
    exact State.pop_eq_error_iff.mpr ⟨hsp, rfl⟩
  | stackFull hw hsp =>
    rw [execute_eq_error_iff_of_fits hw]
    exact State.push_eq_error_iff.mpr ⟨Nat.le_of_eq hsp.symm, rfl⟩
  | noSuchKey hw hkey =>
    rcases hw with hw | hw
    all_goals
      rw [execute_eq_error_iff_of_fits hw]
      exact map_eq_error_iff.mpr (State.pressed_eq_error_iff.mpr ⟨hkey, rfl⟩)
  | indexOverflow hw hi =>
    rw [execute_eq_error_iff_of_fits hw]
    exact State.addIndex_eq_error_iff.mpr ⟨hi, rfl⟩
  | addressOutOfRange hw hheight hi =>
    rw [execute_eq_error_iff_of_fits hw]
    exact State.draw_eq_error_iff.mpr (.inl ⟨hheight, hi, rfl⟩)
  | pixelOffScreen hw hrows hfirst =>
    rw [execute_eq_error_iff_of_fits hw]
    exact State.draw_eq_error_iff.mpr (.inr ⟨hrows, _, _, hfirst, rfl⟩)

end Machine

namespace Operation

variable {σ : Type} [RandomSource σ] {m : Machine σ}

theorem apply_execute_eq_error_iff (hsp : m.state.sp.toNat ≤ 16) {w : Word} {fault : Fault} :
    ((execute w).apply m).1 = .error (.fault fault) ↔ m.execute w = .error fault := by
  rw [apply_eq_error_iff hsp, result, map_eq_error_iff]

/-- A step fails in its fetch, or as the word that it fetched fails. -/
theorem apply_step_eq_error_iff (hsp : m.state.sp.toNat ≤ 16) {fault : Fault} :
    (step.apply m).1 = .error (.fault fault) ↔
      m.memory.readWord m.state.pc = .error fault ∨
        ∃ w, m.memory.readWord m.state.pc = .ok w ∧ m.execute w = .error fault := by
  rw [apply_eq_error_iff hsp, result, map_eq_error_iff, Machine.step]
  cases m.memory.readWord m.state.pc with
  | error other => simp
  | ok w => simp [map_eq_error_iff]

/-- A word fails in the cases of the table and in no others. A step fails in its
fetch when the program counter is past the last word, and otherwise as that word, whose
bytes stand at the counter and behind it. Neither ever crashes. -/
theorem fails_iff_faults (hsp : m.state.sp.toNat ≤ 16) :
    (∀ w stop, ((execute w).apply m).1 = .error stop ↔
      ∃ fault, stop = .fault fault ∧ m.Faults w fault) ∧
      ∀ stop, (step.apply m).1 = .error stop ↔
        (4095 ≤ m.state.pc.toNat ∧
          stop = .fault (.addressOutOfRange (max m.state.pc.toNat 4096))) ∨
        ∃ (hi lo : UInt8) (w : Word), m.memory[m.state.pc.toNat]? = some hi ∧
          m.memory[m.state.pc.toNat + 1]? = some lo ∧ w.toNat = 256 * hi.toNat + lo.toNat ∧
          ((execute w).apply m).1 = .error stop := by
  constructor
  · intro w stop
    cases stop with
    | crash => exact ⟨fun h => absurd h (apply_ne_crash hsp _), nofun⟩
    | fault fault =>
      rw [apply_execute_eq_error_iff hsp]
      simp only [Stop.fault.injEq, exists_eq_left']
      exact ⟨Machine.faults_of_execute hsp, Machine.execute_of_faults⟩
  · intro stop
    cases stop with
    | crash =>
      constructor
      · intro h
        exact absurd h (apply_ne_crash hsp _)
      · rintro (⟨-, h⟩ | ⟨_, _, w, -, -, -, h⟩)
        · cases h
        · exact absurd h (apply_ne_crash hsp _)
    | fault fault =>
      rw [apply_step_eq_error_iff hsp, Memory.readWord_eq_error_iff]
      simp only [Stop.fault.injEq, apply_execute_eq_error_iff hsp, Memory.readWord_eq_ok_iff,
        Word.eq_ofBytes_iff]
      refine or_congr Iff.rfl ?_
      constructor
      · rintro ⟨w, ⟨hi, lo, hhi, hlo, hw⟩, hexecute⟩
        exact ⟨hi, lo, w, hhi, hlo, hw, hexecute⟩
      · rintro ⟨hi, lo, w, hhi, hlo, hw, hexecute⟩
        exact ⟨w, ⟨hi, lo, hhi, hlo, hw⟩, hexecute⟩

/-- The index register cannot go past its greatest value. -/
theorem fails_iff_faults_greatest_index :
    let m : Machine Progression :=
      { memory := Memory.zero
        state := { State.initial with v := State.initial.v.setIfInBounds 0 1, i := 0xFFFF }
        source := { value := 0, increment := 0 } }
    m.state.sp.toNat ≤ 16 ∧ ((execute 0xF01E).apply m).1 = .error (.fault .indexOverflow) := by
  intro m
  have hsp : m.state.sp.toNat ≤ 16 := by decide
  have hw : Word.Fits 0xF01E .addIndex := ⟨rfl, trivial, rfl, rfl⟩
  have hi : 65535 < m.state.i.toNat + (m.state.read (Word.x 0xF01E)).toNat := by decide +kernel
  have hfails := (fails_iff_faults hsp).1 0xF01E (.fault .indexOverflow)
  exact ⟨hsp, hfails.mpr ⟨_, rfl, .indexOverflow hw hi⟩⟩

end Operation

end ChipEight
