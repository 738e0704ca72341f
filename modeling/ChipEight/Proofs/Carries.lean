import ChipEight.Proofs.Agreement
import ChipEight.Proofs.DecodeTable
import Mathlib.Algebra.GroupWithZero.Nat

/-! Immediates added to a register one after another. A sum that does not fit in a register
wraps and leaves its carry in VF, so nothing of the exact sum is lost: it is what the register
holds in the end, and 256 for each addition behind which VF was 1. VF as the register that is
added to is a case of its own. The carry is written behind the sum and takes its place, so VF
has the latest carry and no sum. -/

namespace ChipEight

namespace Word

/-- The word that adds a value to a register. -/
def addition (x : Fin 16) (value : UInt8) : Word := (Instruction.add x.val value).word

variable {x : Fin 16} {value : UInt8}

theorem toNat_addition : (addition x value).toNat = 0x7000 + 256 * x.val + value.toNat := by
  have hvalue := value.toNat_lt
  have hlt : 0x7000 + 256 * x.val + value.toNat < 65536 := by omega
  exact UInt16.toNat_ofNat_of_lt hlt

theorem addition_fits : (addition x value).Fits .add := by
  have hvalue := value.toNat_lt
  refine ⟨?_, trivial, trivial, trivial⟩
  show (addition x value).toNat / 4096 = 7
  rw [toNat_addition]
  omega

theorem x_addition : (addition x value).x = x.val := by
  have hvalue := value.toNat_lt
  show (addition x value).toNat / 256 % 16 = x.val
  rw [toNat_addition]
  omega

theorem immediate_addition : (addition x value).immediate = value := by
  have hvalue := value.toNat_lt
  refine UInt8.toNat_inj.mp ?_
  rw [toNat_immediate, toNat_addition]
  omega

theorem decode_addition : Instruction.decode (addition x value) = .ok (.add x.val value) := by
  rw [Instruction.decode_of_fits addition_fits, Pattern.instruction, x_addition,
    immediate_addition]

end Word

namespace State

/-- What goes beyond eight bits in the sum of two bytes. -/
def carry (a b : UInt8) : UInt8 := if 255 < a.toNat + b.toNat then 1 else 0

theorem carry_eq_zero_or_one (a b : UInt8) : carry a b = 0 ∨ carry a b = 1 := by
  unfold carry
  split
  · exact .inr rfl
  · exact .inl rfl

/-- A sum that has wrapped is below what was added to. -/
theorem add_lt_iff (a b : UInt8) : a + b < a ↔ 255 < a.toNat + b.toNat := by
  have ha := a.toNat_lt
  have hb := b.toNat_lt
  rw [UInt8.lt_iff_toNat_lt, UInt8.toNat_add]
  omega

theorem toNat_add_toNat (a b : UInt8) :
    a.toNat + b.toNat = 256 * (carry a b).toNat + (a + b).toNat := by
  have ha := a.toNat_lt
  have hb := b.toNat_lt
  rw [UInt8.toNat_add, carry]
  split
  · rw [UInt8.toNat_one]
    omega
  · rw [UInt8.toNat_zero]
    omega

theorem count_carry (a b : UInt8) : [carry a b].count 1 = (carry a b).toNat := by
  rcases carry_eq_zero_or_one a b with h | h <;> rw [h] <;> rfl

/-- The state behind an addition. -/
def added (s : State) (x : Nat) (value : UInt8) : State :=
  ((s.write x (s.read x + value)).write Register.flag (carry (s.read x) value)).advance

variable {s : State} {x : Nat} {value : UInt8}

theorem execute_add (memory : Memory) (roll : UInt8) :
    s.execute memory roll (.add x value) = .ok (s.added x value) := by
  simp only [execute, add_lt_iff, added, carry]

theorem read_flag_added : (s.added x value).read Register.flag = carry (s.read x) value := by
  show ((s.write x _).write Register.flag (carry (s.read x) value)).read Register.flag = _
  rw [read_write _ _ _ _ (by decide), if_pos rfl]

theorem read_added (hx : x < 16) (hne : x ≠ Register.flag) :
    (s.added x value).read x = s.read x + value := by
  show ((s.write x (s.read x + value)).write Register.flag _).read x = _
  rw [read_write _ _ _ _ (by decide), if_neg (Ne.symm hne), read_write _ _ _ _ hx, if_pos rfl]

end State

namespace Operation

variable {σ : Type} [RandomSource σ] {m : Machine σ} {x : Fin 16}

/-- The operations that add these values to a register, one after another. -/
def additions (x : Fin 16) (values : List UInt8) : List Operation :=
  values.map fun value => execute (Word.addition x value)

/-- What VF holds behind each operation of a history. -/
def flags (m : Machine σ) : List Operation → List UInt8
  | [] => []
  | operation :: rest =>
    (operation.apply m).2.state.read Register.flag :: flags (operation.apply m).2 rest

theorem apply_addition (m : Machine σ) (x : Fin 16) (value : UInt8) :
    (execute (Word.addition x value)).apply m =
      (.ok .done, { m with state := m.state.added x.val value }) := by
  have hret : Instruction.decode (Word.addition x value) = .ok .ret → m.state.sp.toNat ≤ 16 := by
    rw [Word.decode_addition]
    exact nofun
  rw [apply_execute_eq hret]
  simp only [Machine.execute, Word.decode_addition, Machine.perform, State.execute_add]
  rfl

theorem succeeds_additions (m : Machine σ) (x : Fin 16) (values : List UInt8) :
    Succeeds m (additions x values) := by
  induction values generalizing m with
  | nil => exact nofun
  | cons value values ih =>
    refine succeeds_cons.mpr ⟨⟨.done, ?_⟩, ih _⟩
    rw [apply_addition]

theorem flags_additions (m : Machine σ) (x : Fin 16) (values : List UInt8) :
    ∀ flag ∈ flags m (additions x values), flag = 0 ∨ flag = 1 := by
  induction values generalizing m with
  | nil => exact nofun
  | cons value values ih =>
    refine List.forall_mem_cons.mpr ⟨?_, ih _⟩
    rw [apply_addition, State.read_flag_added]
    exact State.carry_eq_zero_or_one _ _

/-- Each addition accounts for its own carry, and the rest for theirs. -/
theorem toNat_add_sum_additions (hx : x.val ≠ Register.flag) (m : Machine σ)
    (values : List UInt8) :
    (m.state.read x).toNat + (values.map UInt8.toNat).sum =
      256 * (flags m (additions x values)).count 1 +
        ((after m (additions x values)).state.read x).toNat := by
  induction values generalizing m with
  | nil => exact (Nat.zero_add _).symm
  | cons value values ih =>
    have hrest := ih { m with state := m.state.added x.val value }
    rw [State.read_added x.isLt hx] at hrest
    have hfirst := State.toNat_add_toNat (m.state.read x) value
    have hflags : flags m (additions x (value :: values)) =
        [State.carry (m.state.read x) value] ++
          flags { m with state := m.state.added x.val value } (additions x values) := by
      simp only [additions, List.map_cons, flags, apply_addition, State.read_flag_added]
      rfl
    have hafter : after m (additions x (value :: values)) =
        after { m with state := m.state.added x.val value } (additions x values) := by
      simp only [additions, List.map_cons, after, List.foldl_cons, apply_addition]
    rw [hflags, hafter, List.count_append, State.count_carry, List.map_cons, List.sum_cons]
    omega

theorem after_additions_concat (m : Machine σ) (x : Fin 16) (values : List UInt8)
    (value : UInt8) :
    (after m (additions x (values ++ [value]))).state =
      (after m (additions x values)).state.added x.val value := by
  have hconcat : additions x (values ++ [value]) =
      additions x values ++ [execute (Word.addition x value)] := by
    simp only [additions, List.map_append, List.map_cons, List.map_nil]
  rw [hconcat, after_concat, apply_addition]

/-- Additions to a register succeed, and VF is 0 or 1 behind each of them. If the register is
not VF, the exact sum of all that was added is what the register holds in the end and 256 for
each time that VF was 1. If it is VF, it holds the carry of the latest sum instead of that sum. -/
theorem additions_account_for_carries (m : Machine σ) (x : Fin 16) (values : List UInt8) :
    Succeeds m (additions x values) ∧
      (∀ flag ∈ flags m (additions x values), flag = 0 ∨ flag = 1) ∧
      (x.val ≠ Register.flag →
        (m.state.read x).toNat + (values.map UInt8.toNat).sum =
          256 * (flags m (additions x values)).count 1 +
            ((after m (additions x values)).state.read x).toNat) ∧
      (x.val = Register.flag → ∀ value,
        (after m (additions x (values ++ [value]))).state.read x =
          State.carry ((after m (additions x values)).state.read x) value) := by
  refine ⟨succeeds_additions m x values, flags_additions m x values,
    fun hx => toNat_add_sum_additions hx m values, fun hx value => ?_⟩
  rw [after_additions_concat, hx, State.read_flag_added]

/-- The sums 557 in V3, past 256 twice over, and in VF 300 and then 256, of which it keeps the
carries. -/
theorem additions_account_for_carries_twice_over :
    let m : Machine Progression :=
      { memory := Memory.zero
        state := State.initial.write Register.flag 100
        source := { value := 0, increment := 0 } }
    flags m (additions 3 [200, 100, 250, 7]) = [0, 1, 1, 0] ∧
      0 + 557 = 256 * 2 + ((after m (additions 3 [200, 100, 250, 7])).state.read 3).toNat ∧
      (after m (additions 15 [200])).state.read 15 = 1 ∧
      (after m (additions 15 [200, 255])).state.read 15 = 1 := by
  intro m
  have hflags : flags m (additions 3 [200, 100, 250, 7]) = [0, 1, 1, 0] := by decide +kernel
  have hfirst : (after m (additions 15 [])).state.read 15 = 100 := rfl
  obtain ⟨-, -, hsum, -⟩ := additions_account_for_carries m 3 [200, 100, 250, 7]
  obtain ⟨-, -, -, hempty⟩ := additions_account_for_carries m 15 []
  obtain ⟨-, -, -, hone⟩ := additions_account_for_carries m 15 [200]
  have hcarry : (after m (additions 15 [200])).state.read 15 = 1 :=
    (hempty rfl 200).trans (by decide +kernel)
  have htotal := hsum (by decide)
  rw [hflags] at htotal
  exact ⟨hflags, htotal, hcarry, (hone rfl 255).trans (by decide +kernel)⟩

end Operation

end ChipEight
