/-! Texts laid out in columns. Pieces of one width that are joined, with a separator or without,
stand at places that their numbers give, and whatever stands behind a text of known length can be
cut out again. A run of characters of one kind can be told from what stands behind it, whatever its
length is. -/

namespace ChipEight

/-- Pieces of one width, joined: the piece and the place in it by division. -/
theorem getElem?_flatMap_of_length {α β : Type} {piece : α → List β} {width : Nat} {as : List α}
    (h : ∀ a ∈ as, (piece a).length = width) (k : Nat) {j : Nat} (hj : j < width) :
    (as.flatMap piece)[width * k + j]? = as[k]?.bind fun a => (piece a)[j]? := by
  induction as generalizing k with
  | nil => rfl
  | cons a as ih =>
    obtain ⟨ha, has⟩ := List.forall_mem_cons.mp h
    rw [List.flatMap_cons]
    cases k with
    | zero =>
      rw [List.getElem?_append_left (by omega), Nat.mul_zero, Nat.zero_add]
      rfl
    | succ k =>
      have hplace : width * (k + 1) + j - (piece a).length = width * k + j := by
        rw [ha, Nat.mul_succ]
        omega
      rw [List.getElem?_append_right (by rw [ha, Nat.mul_succ]; omega), hplace, ih has]
      rfl

theorem length_flatMap_of_length {α β : Type} {piece : α → List β} {width : Nat} {as : List α}
    (h : ∀ a ∈ as, (piece a).length = width) :
    (as.flatMap piece).length = as.length * width := by
  rw [List.length_flatMap, List.map_congr_left h, List.map_const', List.sum_replicate_nat]

/-- The piece behind some others stands between two separators. -/
theorem intercalate_append_cons {α : Type} (separator : List α) (before : List (List α))
    (piece : List α) (rest : List (List α)) :
    separator.intercalate (before ++ piece :: rest) =
      before.flatMap (· ++ separator) ++ (piece ++ rest.flatMap (separator ++ ·)) := by
  induction before with
  | nil =>
    induction rest generalizing piece with
    | nil => simp
    | cons next rest ih =>
      rw [List.nil_append, List.intercalate_cons_cons]
      simpa using ih next
  | cons first before ih =>
    rw [List.cons_append, List.intercalate_cons_of_ne_nil (by simp), ih]
    simp

/-- A run ends where what stands behind it begins with a character of another kind. -/
theorem takeWhile_dropWhile_append {α : Type} {p : α → Bool} {run rest : List α}
    (hrun : ∀ a ∈ run, p a = true) (hrest : ∀ a ∈ rest.head?, p a = false) :
    (run ++ rest).takeWhile p = run ∧ (run ++ rest).dropWhile p = rest := by
  rw [List.takeWhile_append_of_pos hrun, List.dropWhile_append_of_pos hrun]
  cases rest with
  | nil => simp
  | cons a rest => simp [hrest a rfl]

/-- So many characters of a text, from one place on. -/
def cut (start width : Nat) (text : String) : List Char := (text.toList.drop start).take width

theorem cut_eq {text : String} {before piece rest : List Char} {start width : Nat}
    (h : text.toList = before ++ (piece ++ rest)) (hstart : before.length = start)
    (hwidth : piece.length = width) : cut start width text = piece := by
  rw [cut, h, List.drop_left' hstart, List.take_left' hwidth]

end ChipEight
