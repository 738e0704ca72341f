import ChipEight.Machine.Events
import ChipEight.Proofs.Columns
import ChipEight.Proofs.DecodeTable

/-! The line that traces a word. Each value that it shows has columns of its own, which are the
same for all values: numbers are filled with zeros up to the digits of their type, and the column
for mnemonics is wider than the mnemonic of any word. So the line can be cut up and read back,
and it tells the word, the registers, the index register and the program counter. -/

namespace ChipEight

open Numeral

namespace Numeral

theorem length_chars_byte (byte : UInt8) : (chars 16 2 byte.toNat).length = 2 :=
  length_chars_of_lt 1 byte.toNat_lt

theorem length_chars_word (word : UInt16) : (chars 16 4 word.toNat).length = 4 :=
  length_chars_of_lt 3 word.toNat_lt

theorem length_marked (width n : Nat) :
    (marked width n).toList.length = (chars 16 width n).length + 2 := by
  simp [marked, hex]

end Numeral

/-! ## Mnemonics fit in their column -/

theorem Register.length_label {x : Nat} (h : x < 16) : (label x).toList.length = 2 := by
  have hdigit : (chars 16 1 x).length = 1 := length_chars_of_lt 0 h
  simp [label, hex, hdigit]

namespace Instruction

/-- The longest mnemonics are those of draws, with fourteen characters. -/
theorem length_mnemonic_le {w : Word} {i : Instruction} (h : decode w = .ok i) :
    i.mnemonic.toList.length ≤ 14 := by
  have hx := Register.length_label w.x_lt
  have hy := Register.length_label w.y_lt
  have htarget : (marked 3 w.target.toNat).toList.length = 5 := by
    rw [length_marked, w.toNat_target, length_chars_of_lt 2 (Nat.mod_lt _ (by decide))]
  have himmediate : (marked 2 w.immediate.toNat).toList.length = 4 := by
    rw [length_marked, length_chars_byte]
  have hheight : (decimal w.height.toNat).toList.length ≤ 2 := by
    have hlt : w.height.toNat < Nat.pow 10 2 := by
      rw [w.toNat_height]
      exact Nat.lt_trans (Nat.mod_lt _ (by decide)) (by decide)
    rw [decimal, String.toList_ofList, length_chars, Nat.zero_max]
    exact length_digits_le 1 hlt
  obtain ⟨p, -, rfl⟩ := exists_fits_of_decode h
  cases p with
  | draw =>
    simp [Pattern.instruction, mnemonic, pair, hx, hy]
    omega
  | _ => simp [Pattern.instruction, mnemonic, pair, hx, hy, htarget, himmediate]

end Instruction

namespace Snapshot

/-- The line shows the values of the snapshot, each in columns of its own. -/
structure Shown (s : Snapshot) (line : String) : Prop where
  word : cut 0 4 line = chars 16 4 s.word.toNat
  mnemonic : cut 5 16 line = (column 16 s.instruction.mnemonic).toList
  register : ∀ k : Fin 16, cut (24 + 4 * k.val) 2 line = chars 16 2 (s.v.get k).toNat
  index : cut 89 4 line = chars 16 4 s.i.toNat
  pc : cut 96 4 line = chars 16 4 s.pc.toNat

variable {s : Snapshot}

theorem length_column {text : String} {width : Nat} (h : text.toList.length ≤ width) :
    (column width text).toList.length = width := by
  rw [String.length_toList] at h
  simp only [column, String.toList_append, String.toList_ofList, List.length_append,
    String.length_toList, List.length_replicate]
  omega

/-- Each byte in two digits, those of the first in front. -/
def digitPairs (bytes : List UInt8) : List (List Char) :=
  bytes.map fun byte => chars 16 2 byte.toNat

theorem length_of_mem_digitPairs {bytes : List UInt8} {pair : List Char}
    (h : pair ∈ digitPairs bytes) : pair.length = 2 := by
  obtain ⟨byte, -, rfl⟩ := List.mem_map.mp h
  exact length_chars_byte byte

theorem toList_registers (v : Vector UInt8 16) :
    (registers v).toList =
      'v' :: '[' :: ([',', ' '].intercalate (digitPairs v.toList) ++ [']']) := by
  simp [registers, digitPairs, String.toList_intercalate, hex, Function.comp_def]

/-- The two digits of a register stand behind four characters for each register before it. -/
theorem exists_registers_eq (v : Vector UInt8 16) (k : Fin 16) :
    ∃ before rest, (registers v).toList = before ++ (chars 16 2 (v.get k).toNat ++ rest) ∧
      before.length = 2 + 4 * k.val ∧ rest.length = 61 - 4 * k.val := by
  have hpairs : digitPairs v.toList = digitPairs (v.toList.take k.val) ++
      chars 16 2 (v.get k).toNat :: digitPairs (v.toList.drop (k.val + 1)) := by
    have hsplit : v.toList = v.toList.take k.val ++ v.get k :: v.toList.drop (k.val + 1) := by
      have hget : v.toList[k.val]? = some (v.get k) := by
        simp
        rfl
      obtain ⟨hk, hget⟩ := List.getElem?_eq_some_iff.mp hget
      rw [← hget, ← List.drop_eq_getElem_cons hk, List.take_append_drop]
    exact (congrArg digitPairs hsplit).trans List.map_append
  have hbefore : ∀ pair ∈ digitPairs (v.toList.take k.val), (pair ++ [',', ' ']).length = 4 :=
    fun pair h => by simp [length_of_mem_digitPairs h]
  have hrest : ∀ pair ∈ digitPairs (v.toList.drop (k.val + 1)), ([',', ' '] ++ pair).length = 4 :=
    fun pair h => by simp [length_of_mem_digitPairs h]
  rw [toList_registers, hpairs, intercalate_append_cons]
  refine ⟨'v' :: '[' :: (digitPairs (v.toList.take k.val)).flatMap (· ++ [',', ' ']),
    (digitPairs (v.toList.drop (k.val + 1))).flatMap ([',', ' '] ++ ·) ++ [']'], ?_, ?_, ?_⟩
  · simp
  · simp only [List.length_cons, length_flatMap_of_length hbefore]
    simp [digitPairs]
    omega
  · rw [List.length_append, length_flatMap_of_length hrest]
    simp [digitPairs]
    omega

theorem length_registers (v : Vector UInt8 16) : (registers v).toList.length = 65 := by
  obtain ⟨before, rest, heq, hbefore, hrest⟩ := exists_registers_eq v 0
  rw [heq, List.length_append, List.length_append, hbefore, hrest, length_chars_byte]
  rfl

theorem toList_line (s : Snapshot) :
    s.line.toList = chars 16 4 s.word.toNat ++ ' ' ::
      ((column 16 s.instruction.mnemonic).toList ++ ' ' ::
        ((registers s.v).toList ++ ' ' :: 'i' ::
          (chars 16 4 s.i.toNat ++ ' ' :: 'p' :: 'c' :: chars 16 4 s.pc.toNat))) := by
  simp [line, mnemonicWidth, hex]

theorem length_column_mnemonic (h : Instruction.decode s.word = .ok s.instruction) :
    (column 16 s.instruction.mnemonic).toList.length = 16 :=
  length_column (Nat.le_trans (Instruction.length_mnemonic_le h) (by decide))

theorem length_line (h : Instruction.decode s.word = .ok s.instruction) :
    s.line.length = 100 := by
  rw [← String.length_toList, toList_line]
  simp only [List.length_append, List.length_cons, length_chars_word, length_column_mnemonic h,
    length_registers]

theorem shown_line (h : Instruction.decode s.word = .ok s.instruction) : s.Shown s.line := by
  have hword := length_chars_word s.word
  have hcolumn := length_column_mnemonic h
  have hline := toList_line s
  -- What stands before the registers.
  obtain ⟨front, hfront⟩ : ∃ front, front = chars 16 4 s.word.toNat ++ ' ' ::
      ((column 16 s.instruction.mnemonic).toList ++ [' ']) := ⟨_, rfl⟩
  have hlength : front.length = 22 := by
    rw [hfront]
    simp only [List.length_append, List.length_cons, hword, hcolumn, List.length_nil]
  have hbehind : s.line.toList = front ++ ((registers s.v).toList ++ ' ' :: 'i' ::
      (chars 16 4 s.i.toNat ++ ' ' :: 'p' :: 'c' :: chars 16 4 s.pc.toNat)) := by
    rw [hline, hfront]
    simp
  refine ⟨?_, ?_, fun k => ?_, ?_, ?_⟩
  · exact cut_eq (hline : _ = [] ++ (_ ++ _)) List.length_nil hword
  · refine cut_eq (hline.trans (List.append_cons _ ' ' _)) ?_ hcolumn
    rw [List.length_append, hword, List.length_singleton]
  · obtain ⟨before, rest, heq, hbefore, -⟩ := exists_registers_eq s.v k
    rw [heq, List.append_assoc, ← List.append_assoc, List.append_assoc (chars 16 2 _)] at hbehind
    refine cut_eq hbehind ?_ (length_chars_byte _)
    rw [List.length_append, hlength, hbefore]
    omega
  · have hsplit : s.line.toList = (front ++ ((registers s.v).toList ++ [' ', 'i'])) ++
        (chars 16 4 s.i.toNat ++ ' ' :: 'p' :: 'c' :: chars 16 4 s.pc.toNat) := by
      simp [hbehind]
    refine cut_eq hsplit ?_ (length_chars_word s.i)
    simp only [List.length_append, List.length_cons, hlength, length_registers, List.length_nil]
  · have hsplit : s.line.toList = (front ++ ((registers s.v).toList ++ ' ' :: 'i' ::
        (chars 16 4 s.i.toNat ++ [' ', 'p', 'c']))) ++ (chars 16 4 s.pc.toNat ++ []) := by
      simp [hbehind]
    refine cut_eq hsplit ?_ (length_chars_word s.pc)
    simp only [List.length_append, List.length_cons, hlength, length_registers, length_chars_word,
      List.length_nil]

/-! ## Reading a line back -/

/-- The number in some columns of a line. -/
def number? (start width : Nat) (line : String) : Option Nat :=
  Numeral.read? 16 (cut start width line)

/-- The snapshot that a line shows. The instruction is that of the word; the mnemonic, which says
the same, is passed over. -/
def ofLine? (line : String) : Option Snapshot := do
  let word ← number? 0 4 line
  let instruction ← (Instruction.decode (.ofNat word)).toOption
  let v ← Vector.ofFnM fun k : Fin 16 => number? (24 + 4 * k.val) 2 line
  let i ← number? 89 4 line
  let pc ← number? 96 4 line
  return {
    word := .ofNat word
    instruction
    v := v.map UInt8.ofNat
    i := .ofNat i
    pc := .ofNat pc }

theorem number?_eq {line : String} {start width places n : Nat}
    (h : cut start width line = chars 16 places n) : number? start width line = some n := by
  rw [number?, h]
  exact read?_chars (by decide) (by decide) places n

theorem Shown.ofLine?_eq {line : String} (h : s.Shown line)
    (hdecode : Instruction.decode s.word = .ok s.instruction) : ofLine? line = some s := by
  have hregisters : (Vector.ofFnM fun k : Fin 16 => number? (24 + 4 * k.val) 2 line) =
      some (Vector.ofFn fun k => (s.v.get k).toNat) := by
    simp only [fun k => number?_eq (h.register k)]
    exact Vector.ofFnM_pure
  have hv : (Vector.ofFn fun k => (s.v.get k).toNat).map UInt8.ofNat = s.v := by
    refine Vector.ext fun k hk => ?_
    simp
    rfl
  simp only [ofLine?, number?_eq h.word, number?_eq h.index, number?_eq h.pc, hregisters,
    Option.bind_eq_bind, Option.bind_some, UInt16.ofNat_toNat, hdecode, Except.toOption, hv]
  rfl

theorem ofLine?_line (h : Instruction.decode s.word = .ok s.instruction) :
    ofLine? s.line = some s :=
  (shown_line h).ofLine?_eq h

theorem line_injective {t : Snapshot} (hs : Instruction.decode s.word = .ok s.instruction)
    (ht : Instruction.decode t.word = .ok t.instruction) (h : s.line = t.line) : s = t :=
  eq_of_reads (ofLine?_line hs) (ofLine?_line ht) h

end Snapshot

namespace Machine

variable {σ : Type} {m : Machine σ} {w : Word} {instruction : Instruction}

/-- What is traced of a word with this instruction. -/
def snapshot (m : Machine σ) (w : Word) (instruction : Instruction) : Snapshot :=
  { word := w, instruction, v := m.state.v, i := m.state.i, pc := m.state.pc }

theorem eventsOfExecute_of_decode (hdecode : Instruction.decode w = .ok instruction) :
    m.eventsOfExecute w = [.executing (m.snapshot w instruction)] := by
  rw [eventsOfExecute, hdecode]
  rfl

theorem decode_of_traced {line : String} (h : (m.eventsOfExecute w).map Event.message = [line]) :
    ∃ instruction, Instruction.decode w = .ok instruction ∧
      (m.snapshot w instruction).line = line := by
  cases hdecode : Instruction.decode w with
  | error fault =>
    rw [eventsOfExecute, hdecode] at h
    cases h
  | ok instruction =>
    rw [eventsOfExecute_of_decode hdecode] at h
    exact ⟨instruction, rfl, (List.cons.inj h).1⟩

/-- A word that has an instruction is traced by one line of a hundred characters, in which each
value has a place of its own. The word, its instruction, the registers, the index register and
the program counter are read back from the line, so a line that traces another execution is the
same only if all of these are. -/
theorem trace_line_is_lossless (m : Machine σ)
    (hdecode : Instruction.decode w = .ok instruction) :
    ∃ line, (m.eventsOfExecute w).map (fun e => (e.level, e.message)) = [(.trace, line)] ∧
      line.length = 100 ∧ instruction.mnemonic.length ≤ 16 ∧
      (m.snapshot w instruction).Shown line ∧
      Snapshot.ofLine? line = some (m.snapshot w instruction) ∧
      ∀ (τ : Type) (n : Machine τ) (u : Word), (n.eventsOfExecute u).map Event.message = [line] →
        u = w ∧ n.state.v = m.state.v ∧ n.state.i = m.state.i ∧ n.state.pc = m.state.pc := by
  have hwidth : instruction.mnemonic.length ≤ 16 := by
    rw [← String.length_toList]
    exact Nat.le_trans (Instruction.length_mnemonic_le hdecode) (by decide)
  refine ⟨(m.snapshot w instruction).line, ?_, Snapshot.length_line hdecode, hwidth,
    Snapshot.shown_line hdecode, Snapshot.ofLine?_line hdecode, fun τ n u h => ?_⟩
  · rw [eventsOfExecute_of_decode hdecode]
    rfl
  · obtain ⟨other, hother, hline⟩ := decode_of_traced h
    have hsame : n.snapshot u other = m.snapshot w instruction :=
      Snapshot.line_injective hother hdecode hline
    obtain ⟨hword, -, hv, hi, hpc⟩ := Snapshot.mk.inj hsame
    exact ⟨hword, hv, hi, hpc⟩

/-- The longest mnemonic there is, and values of all widths. -/
theorem trace_line_is_lossless_widest_draw :
    let m : Machine Progression :=
      { memory := Memory.zero
        state := { State.initial.write 15 0xAB with i := 0x7, pc := 0xFFFF }
        source := { value := 0, increment := 0 } }
    let i : Instruction := .draw 15 14 15
    Instruction.decode 0xDFEF = .ok i ∧ i.mnemonic = "DRW VF, VE, 15" ∧
      ∃ line, (m.eventsOfExecute 0xDFEF).map (fun e => (e.level, e.message)) = [(.trace, line)] ∧
        line.length = 100 ∧ cut 5 16 line = "DRW VF, VE, 15  ".toList ∧
        cut 84 2 line = "AB".toList ∧ cut 89 4 line = "0007".toList ∧
        cut 96 4 line = "FFFF".toList ∧ Snapshot.ofLine? line = some (m.snapshot 0xDFEF i) := by
  intro m i
  have hdecode : Instruction.decode 0xDFEF = .ok i := by decide
  obtain ⟨line, htraced, hlength, -, hshown, hread, -⟩ := trace_line_is_lossless m hdecode
  refine ⟨hdecode, by decide +kernel, line, htraced, hlength, hshown.mnemonic.trans ?_,
    (hshown.register 15).trans ?_, hshown.index.trans ?_, hshown.pc.trans ?_, hread⟩
  all_goals decide +kernel

end Machine

end ChipEight
