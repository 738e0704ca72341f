import ChipEight.Display.Picture
import ChipEight.Proofs.Columns
import ChipEight.Proofs.WellFormed

/-! The text of a frame against its pixels. A row of 64 pixels takes 65 characters, its end
among them, so the mark of a pixel stands at a place that its column and its row give, and the
marks in their order are the pixels in theirs. Whoever knows the text knows which pixels are lit,
and so the frame, if its pixels are 0 and 1. -/

namespace ChipEight

namespace Frame

variable {f g : Frame}

theorem getElem?_rows (f : Frame) (y : Fin 32) :
    f.rows[y.val]? = some ((List.finRange 64).map fun x => f.pixel x y) := by
  simp [rows]

theorem length_of_mem_rows {row : List UInt8} (h : row ∈ f.rows) : row.length = 64 := by
  obtain ⟨y, -, rfl⟩ := List.mem_map.mp h
  simp

theorem length_rows (f : Frame) : f.rows.length = 32 := by simp [rows]

theorem length_flatten_rows (f : Frame) : f.rows.flatten.length = 2048 := by
  rw [← List.flatMap_id', length_flatMap_of_length fun row h => length_of_mem_rows h, length_rows]

theorem getElem?_flatten_rows (f : Frame) (x : Fin 64) (y : Fin 32) :
    f.rows.flatten[64 * y.val + x.val]? = some (f.pixel x y) := by
  rw [← List.flatMap_id', getElem?_flatMap_of_length (fun row h => length_of_mem_rows h) y.val
    x.isLt, getElem?_rows]
  simp

/-- The rows in their order are the whole frame. -/
theorem flatten_rows (f : Frame) : f.rows.flatten = f.toList := by
  have hlength := f.length_flatten_rows
  refine List.ext_getElem (hlength.trans Vector.length_toList.symm) fun i hi _ => ?_
  have hpixel := f.getElem?_flatten_rows ⟨i % 64, by omega⟩ ⟨i / 64, by omega⟩
  simp only [Nat.div_add_mod, pixel, Nat.mod_add_div] at hpixel
  rw [List.getElem?_eq_getElem hi] at hpixel
  exact Option.some.inj hpixel

theorem toList_text (f : Frame) :
    f.text.toList = f.rows.flatMap fun row => row.map mark ++ ['\n'] := by
  simp [text, lines, List.flatMap_map]

theorem length_of_mem_rows_marked :
    ∀ row ∈ f.rows, (row.map mark ++ ['\n']).length = 65 := by
  intro row h
  rw [List.length_append, List.length_map, length_of_mem_rows h, List.length_singleton]

theorem length_text (f : Frame) : f.text.length = 32 * 65 := by
  rw [← String.length_toList, toList_text, length_flatMap_of_length length_of_mem_rows_marked,
    length_rows]

theorem getElem?_toList_text (f : Frame) (y : Fin 32) {j : Nat} (hj : j < 65) :
    f.text.toList[65 * y.val + j]? =
      (((List.finRange 64).map fun x => f.pixel x y).map mark ++ ['\n'])[j]? := by
  rw [toList_text, getElem?_flatMap_of_length length_of_mem_rows_marked y.val hj, getElem?_rows,
    Option.bind_some]

/-- The mark of each pixel stands in the line of its row, and at its column. -/
theorem getElem?_text_mark (f : Frame) (x : Fin 64) (y : Fin 32) :
    f.text.toList[65 * y.val + x.val]? = some (mark (f.pixel x y)) := by
  rw [getElem?_toList_text f y (by omega), List.getElem?_append_left (by simp)]
  simp

theorem getElem?_text_end (f : Frame) (y : Fin 32) :
    f.text.toList[65 * y.val + 64]? = some '\n' := by
  rw [getElem?_toList_text f y (by omega), List.getElem?_append_right (by simp)]
  simp

/-- A text that is a picture of the frame: one under another, for each row, the marks of its
64 pixels and a newline. -/
structure Depicts (text : String) (f : Frame) : Prop where
  length_eq : text.length = 32 * 65
  marked : ∀ (x : Fin 64) (y : Fin 32),
    text.toList[65 * y.val + x.val]? = some (if f.pixel x y = 1 then '#' else '.')
  ended : ∀ y : Fin 32, text.toList[65 * y.val + 64]? = some '\n'

theorem depicts_text (f : Frame) : Depicts f.text f :=
  ⟨f.length_text, f.getElem?_text_mark, f.getElem?_text_end⟩

/-! ## Reading a text back -/

/-- The pixel that a mark stands for. -/
def pixelOf? (c : Char) : Option UInt8 :=
  if c = '#' then some 1 else if c = '.' then some 0 else none

/-- The frame whose pixels are marked in a text. Line ends are dropped, and whatever else is no
mark is refused, as is any other number of pixels. -/
def ofText? (text : String) : Option Frame := do
  let pixels ← (text.toList.filter (· != '\n')).mapM pixelOf?
  if h : pixels.toArray.size = 2048 then some ⟨pixels.toArray, h⟩ else none

theorem mark_ne_newline (pixel : UInt8) : mark pixel ≠ '\n' := by
  unfold mark
  split <;> decide

theorem pixelOf?_mark {pixel : UInt8} (h : pixel = 0 ∨ pixel = 1) :
    pixelOf? (mark pixel) = some pixel := by
  rcases h with rfl | rfl <;> rfl

theorem filter_toList_text (f : Frame) :
    f.text.toList.filter (· != '\n') = f.toList.map mark := by
  have hline : ∀ row : List UInt8,
      (row.map mark ++ ['\n']).filter (· != '\n') = row.map mark := fun row => by
    simp [List.filter_append, mark_ne_newline]
  rw [toList_text, List.filter_flatMap]
  simp only [hline, ← flatten_rows, List.map_flatten, List.flatMap_def]

theorem Binary.mem_toList (h : f.Binary) : ∀ pixel ∈ f.toList, pixel = 0 ∨ pixel = 1 := by
  intro pixel hmem
  obtain ⟨i, hi, rfl⟩ := List.mem_iff_getElem.mp hmem
  exact h ⟨i, by simpa using hi⟩

theorem ofText?_text (h : f.Binary) : ofText? f.text = some f := by
  have hpixels : (f.text.toList.filter (· != '\n')).mapM pixelOf? = some f.toList := by
    rw [filter_toList_text, Numeral.mapM_map_eq_some fun pixel hmem =>
      pixelOf?_mark (h.mem_toList pixel hmem)]
  simp only [ofText?, hpixels, bind, Option.bind_some]
  rw [dif_pos (by simp)]
  rfl

/-- Some machine has this frame behind some history. -/
def OfMachine (f : Frame) : Prop :=
  ∃ (σ : Type) (_ : RandomSource σ) (memory : Memory) (source : σ) (history : List Operation),
    (Operation.after (Machine.ofMemory memory source) history).state.frame = f

theorem OfMachine.binary (h : f.OfMachine) : f.Binary := by
  obtain ⟨σ, _, memory, source, history, rfl⟩ := h
  exact (Operation.wellFormed_after State.wellFormed_initial history).2

/-- The text of a frame has a line of 64 marks and a newline for each row, and each mark shows
whether its pixel is lit. A frame of pixels that are 0 or 1 is read back from its text, so two
frames that machines have are the same if their texts are. -/
theorem text_shows_every_pixel (f : Frame) :
    f.text.length = 32 * 65 ∧
      (∀ (x : Fin 64) (y : Fin 32), f.text.toList[65 * y.val + x.val]? =
        some (if f.pixel x y = 1 then '#' else '.')) ∧
      (∀ y : Fin 32, f.text.toList[65 * y.val + 64]? = some '\n') ∧
      (f.Binary → ofText? f.text = some f) ∧
      (f.OfMachine → ∀ g : Frame, g.OfMachine → f.text = g.text → f = g) := by
  refine ⟨f.length_text, f.getElem?_text_mark, f.getElem?_text_end, ofText?_text,
    fun hf g hg htext => ?_⟩
  exact Numeral.eq_of_reads (ofText?_text hf.binary) (ofText?_text hg.binary) htext

/-- One pixel in the last place of the last row tells a frame from a dark one. -/
theorem text_shows_every_pixel_last_place :
    let memory := Memory.zero.store 0x200 [0x80]
    let history : List Operation :=
      [.execute 0xA200, .execute 0x613F, .execute 0x621F, .execute 0xD121]
    let f := (Operation.after (Machine.ofMemory memory (Progression.mk 0 0)) history).state.frame
    f.OfMachine ∧ dark.OfMachine ∧ f.text.length = 2080 ∧ f.text.toList[2078]? = some '#' ∧
      f.text.toList[2079]? = some '\n' ∧ ofText? f.text = some f ∧ f.text ≠ dark.text := by
  intro memory history f
  have hf : f.OfMachine := ⟨Progression, inferInstance, memory, Progression.mk 0 0, history, rfl⟩
  have hdark : dark.OfMachine :=
    ⟨Progression, inferInstance, Memory.zero, Progression.mk 0 0, [], rfl⟩
  have hlit : f.pixel 63 31 = 1 := by decide +kernel
  obtain ⟨hlength, hmark, hend, hread, hsame⟩ := text_shows_every_pixel f
  have hlast := hmark 63 31
  rw [if_pos hlit] at hlast
  refine ⟨hf, hdark, hlength, hlast, hend 31, hread hf.binary, fun htext => ?_⟩
  rw [hsame hf dark hdark htext] at hlit
  simp [pixel, dark] at hlit

end Frame

end ChipEight
