/-! Numerals as text. A number is written most significant digit first, with
digits `0` to `9` and then capital letters; a shorter numeral is filled with
zeros on the left, a longer one is never cut. `read?` inverts the writing. -/

namespace ChipEight.Numeral

/-- The digits of `n`, most significant first. Zero has one digit. -/
def digits (base n : Nat) : List Nat :=
  if n < base ∨ base < 2 then [n] else digits base (n / base) ++ [n % base]
termination_by n
decreasing_by exact Nat.div_lt_self (by omega) (by omega)

/-- The number that a row of digits stands for. -/
def value (base : Nat) (ds : List Nat) : Nat :=
  ds.foldl (fun n d => base * n + d) 0

theorem value_digits (base n : Nat) : value base (digits base n) = n := by
  fun_induction digits base n with
  | case1 => simp [value]
  | case2 n h ih =>
    simp only [value, List.foldl_append, List.foldl_cons, List.foldl_nil] at ih ⊢
    rw [ih]
    exact Nat.div_add_mod n base

theorem digits_ne_nil (base n : Nat) : digits base n ≠ [] := by
  unfold digits
  split <;> simp

theorem lt_of_mem_digits {base n d : Nat} (hb : 2 ≤ base) (h : d ∈ digits base n) :
    d < base := by
  fun_induction digits base n with
  | case1 n hn =>
    obtain rfl := List.mem_singleton.mp h
    omega
  | case2 n hn ih =>
    rcases List.mem_append.mp h with h | h
    · exact ih h
    · obtain rfl := List.mem_singleton.mp h
      exact Nat.mod_lt _ (by omega)

/-- The character of a digit below thirty-six. -/
def digitChar (d : Nat) : Char :=
  if d < 10 then Char.ofNat (48 + d) else Char.ofNat (55 + d)

/-- The digit that a character is in this base, if it is one. -/
def digitOf? (base : Nat) (c : Char) : Option Nat :=
  if 48 ≤ c.toNat ∧ c.toNat ≤ 57 ∧ c.toNat - 48 < base then some (c.toNat - 48)
  else if 65 ≤ c.toNat ∧ c.toNat ≤ 90 ∧ c.toNat - 55 < base then some (c.toNat - 55)
  else none

theorem toNat_digitChar :
    ∀ d < 36, (digitChar d).toNat = if d < 10 then 48 + d else 55 + d := by
  decide

theorem digitOf?_digitChar {base d : Nat} (hb : base ≤ 36) (h : d < base) :
    digitOf? base (digitChar d) = some d := by
  simp only [digitOf?, toNat_digitChar d (by omega)]
  by_cases h10 : d < 10
  · rw [if_pos h10, if_pos (by omega)]
    simp
  · rw [if_neg h10, if_neg (by omega), if_pos (by omega)]
    simp

/-- Reads a numeral that fills the whole text; no text, or a character that is
no digit, is refused. Zeros on the left make no difference. -/
def read? (base : Nat) (text : List Char) : Option Nat :=
  if text.isEmpty then none else (text.mapM (digitOf? base)).map (value base)

/-- The characters of `n`, filled with zeros on the left up to `width`. -/
def chars (base width n : Nat) : List Char :=
  ((digits base n).map digitChar).leftpad width '0'

/-- A number in base sixteen, in `width` places or more. -/
def hex (width n : Nat) : String := String.ofList (chars 16 width n)

/-- A number in base sixteen behind its mark, with `width` digits or more. -/
def marked (width n : Nat) : String := "0x" ++ hex width n

def decimal (n : Nat) : String := String.ofList (chars 10 0 n)

/-- What is read back from each of its images is read back from all of them. -/
theorem mapM_map_eq_some {α β : Type} {write : α → β} {read? : β → Option α} {as : List α}
    (h : ∀ a ∈ as, read? (write a) = some a) : (as.map write).mapM read? = some as := by
  induction as with
  | nil => rfl
  | cons a as ih =>
    obtain ⟨ha, has⟩ := List.forall_mem_cons.mp h
    simp [ha, ih has]

theorem value_zeros (base k : Nat) (ds : List Nat) :
    value base (List.replicate k 0 ++ ds) = value base ds := by
  induction k with
  | zero => rfl
  | succ k ih => simpa [value, List.replicate_succ] using ih

/-- A numeral is written digit by digit, with the zeros that fill it in front. -/
theorem exists_chars_eq_map {base : Nat} (lo : 2 ≤ base) (width n : Nat) :
    ∃ k, chars base width n = (List.replicate k 0 ++ digits base n).map digitChar ∧
      ∀ d ∈ List.replicate k 0 ++ digits base n, d < base := by
  have hzero : digitChar 0 = '0' := rfl
  refine ⟨width - (digits base n).length, by simp [chars, List.leftpad, hzero], fun d hd => ?_⟩
  rcases List.mem_append.mp hd with hzero | hdigit
  · rw [List.eq_of_mem_replicate hzero]
    omega
  · exact lt_of_mem_digits lo hdigit

theorem chars_ne_nil (base width n : Nat) : chars base width n ≠ [] := by
  simp [chars, List.leftpad, digits_ne_nil]

/-- Reading a written numeral gives the number back, whatever the width. -/
theorem read?_chars {base : Nat} (lo : 2 ≤ base) (hi : base ≤ 36) (width n : Nat) :
    read? base (chars base width n) = some n := by
  obtain ⟨k, hchars, hdigits⟩ := exists_chars_eq_map lo width n
  have hne : ¬ (chars base width n).isEmpty = true := by
    simp [chars_ne_nil]
  rw [read?, if_neg hne, hchars,
    mapM_map_eq_some fun d hd => digitOf?_digitChar hi (hdigits d hd)]
  simp only [Option.map_some, value_zeros, value_digits]

theorem read?_decimal (n : Nat) : read? 10 (decimal n).toList = some n := by
  rw [decimal, String.toList_ofList]
  exact read?_chars (by omega) (by omega) 0 n

/-- A number below a power of the base has no more digits than the exponent says. -/
theorem length_digits_le {base n : Nat} (k : Nat) (h : n < base.pow (k + 1)) :
    (digits base n).length ≤ k + 1 := by
  induction k generalizing n with
  | zero =>
    have hn : n < base := by simpa using h
    rw [digits, if_pos (.inl hn)]
    exact Nat.le_refl 1
  | succ k ih =>
    unfold digits
    split
    · exact Nat.succ_le_succ (Nat.zero_le _)
    · rw [List.length_append, List.length_singleton]
      exact Nat.succ_le_succ (ih (Nat.div_lt_of_lt_mul (Nat.mul_comm _ _ ▸ h)))

/-- A numeral is cut off nowhere: it is as wide as it is to be, or as its digits are. -/
theorem length_chars (base width n : Nat) :
    (chars base width n).length = max width (digits base n).length := by
  simp [chars, List.leftpad]
  omega

theorem length_chars_of_lt {base n : Nat} (k : Nat) (h : n < base.pow (k + 1)) :
    (chars base (k + 1) n).length = k + 1 := by
  rw [length_chars, Nat.max_eq_left (length_digits_le k h)]

/-- A written numeral holds digits only. -/
theorem isSome_digitOf?_of_mem_chars {base width n : Nat} {c : Char} (lo : 2 ≤ base)
    (hi : base ≤ 36) (h : c ∈ chars base width n) : (digitOf? base c).isSome = true := by
  obtain ⟨k, hchars, hdigits⟩ := exists_chars_eq_map lo width n
  rw [hchars] at h
  obtain ⟨d, hd, rfl⟩ := List.mem_map.mp h
  rw [digitOf?_digitChar hi (hdigits d hd), Option.isSome_some]

/-- Two things that a reader gives back from their texts are the same if the texts are. -/
theorem eq_of_reads {α β : Type} {read : β → Option α} {a b : α} {s t : β}
    (hs : read s = some a) (ht : read t = some b) (h : s = t) : a = b := by
  rw [h, ht] at hs
  exact (Option.some.inj hs).symm

theorem chars_injective {base width m n : Nat} (lo : 2 ≤ base) (hi : base ≤ 36)
    (h : chars base width m = chars base width n) : m = n :=
  eq_of_reads (read?_chars lo hi width m) (read?_chars lo hi width n) h

theorem marked_injective {width m n : Nat} (h : marked width m = marked width n) : m = n := by
  have hchars := congrArg String.toList h
  simp only [marked, hex, String.toList_append, String.toList_ofList] at hchars
  exact chars_injective (by decide) (by decide) (List.append_cancel_left hchars)

end ChipEight.Numeral
