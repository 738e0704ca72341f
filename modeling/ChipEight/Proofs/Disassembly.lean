import ChipEight.Instruction.Mnemonic
import ChipEight.Proofs.DecodeTable

/-! Listings read back. A mnemonic is a name and some operands, which blanks and commas divide;
each operand is written in a way of its own, so the name and the kinds of the operands tell the
instruction. The reader that goes by them gives every instruction back from its mnemonic,
whatever its operands are, so no two instructions have the same. A word that has an instruction
is made up of its digits, and one that has none is named by its line. -/

namespace ChipEight

/-! ## Parts of a text -/

namespace Listing

def divides (c : Char) : Bool := c == ' ' || c == ','

/-- What blanks and commas divide a text into. -/
def parts (text : List Char) : List (List Char) :=
  (text.splitOnP divides).filter fun part => !part.isEmpty

/-- A text that is one part. -/
def Solid (text : List Char) : Prop := text ≠ [] ∧ text.any divides = false

instance (text : List Char) : Decidable (Solid text) := inferInstanceAs (Decidable (_ ∧ _))

variable {text : List Char}

theorem Solid.divides_eq (h : Solid text) : ∀ c ∈ text, divides c = false := by
  intro c hc
  simpa using List.any_eq_false.mp h.2 c hc

theorem parts_of_solid (h : Solid text) : parts text = [text] := by
  rw [parts, List.splitOnP_eq_singleton h.divides_eq]
  simp [h.1]

theorem parts_blank (h : Solid text) (rest : List Char) :
    parts (text ++ ' ' :: rest) = text :: parts rest := by
  rw [parts, List.splitOnP_append_cons_of_forall_mem h.divides_eq ' ' rfl]
  simp [h.1, parts]

theorem parts_comma (h : Solid text) (rest : List Char) :
    parts (text ++ ',' :: ' ' :: rest) = text :: parts rest := by
  have hblank : (' ' :: rest).splitOnP divides = [] :: rest.splitOnP divides :=
    List.splitOnP_append_cons_of_forall_mem (List.forall_mem_nil _) ' ' rfl rest
  rw [parts, List.splitOnP_append_cons_of_forall_mem h.divides_eq ',' rfl, hblank]
  simp [h.1, parts]

theorem Solid.cons {c : Char} (hc : divides c = false) (h : Solid text) : Solid (c :: text) := by
  refine ⟨List.cons_ne_nil c text, ?_⟩
  rw [List.any_cons, hc, h.2]
  rfl

theorem solid_chars {base : Nat} (lo : 2 ≤ base) (hi : base ≤ 36) (width n : Nat) :
    Solid (Numeral.chars base width n) := by
  refine ⟨Numeral.chars_ne_nil base width n, List.any_eq_false.mpr fun c hc hdivides => ?_⟩
  have hdigit := Numeral.isSome_digitOf?_of_mem_chars lo hi hc
  rcases Bool.or_eq_true_iff.mp hdivides with hc | hc <;> rw [beq_iff_eq.mp hc] at hdigit <;>
    simp [Numeral.digitOf?] at hdigit

end Listing

/-! ## Operands -/

/-- The kinds of operands that a mnemonic shows. -/
inductive Operand where
  | register (x : Nat)
  | index
  | delay
  /-- An address or an immediate. -/
  | marked (n : Nat)
  /-- The height of a sprite. -/
  | decimal (n : Nat)

namespace Operand

open Numeral Listing

def read? : List Char → Option Operand
  | ['I'] => some index
  | ['D', 'T'] => some delay
  | 'V' :: digits => (Numeral.read? 16 digits).map register
  | '0' :: 'x' :: digits => (Numeral.read? 16 digits).map marked
  | digits => (Numeral.read? 10 digits).map decimal

/-- The text is one part of a mnemonic, and is read as this operand. -/
structure Writes (text : String) (operand : Operand) : Prop where
  solid : Solid text.toList
  read : read? text.toList = some operand

theorem writes_index : Writes "I" index := ⟨by decide, rfl⟩

theorem writes_delay : Writes "DT" delay := ⟨by decide, rfl⟩

theorem writes_register (x : Nat) : Writes (Register.label x) (register x) := by
  have htext : (Register.label x).toList = 'V' :: chars 16 1 x := by simp [Register.label, hex]
  refine ⟨?_, ?_⟩ <;> rw [htext]
  · exact (solid_chars (by decide) (by decide) 1 x).cons rfl
  · have hread : Numeral.read? 16 (chars 16 1 x) = some x := read?_chars (by decide) (by decide) 1 x
    simp [read?, hread]

theorem writes_marked (width n : Nat) : Writes (Numeral.marked width n) (marked n) := by
  have htext : (Numeral.marked width n).toList = '0' :: 'x' :: chars 16 width n := by
    simp [Numeral.marked, hex]
  refine ⟨?_, ?_⟩ <;> rw [htext]
  · exact ((solid_chars (by decide) (by decide) width n).cons rfl).cons rfl
  · have hread : Numeral.read? 16 (chars 16 width n) = some n :=
      read?_chars (by decide) (by decide) width n
    simp [read?, hread]

theorem writes_decimal (n : Nat) : Writes (Numeral.decimal n) (decimal n) := by
  have htext : (Numeral.decimal n).toList = chars 10 0 n := by simp [Numeral.decimal]
  have hread : Numeral.read? 10 (chars 10 0 n) = some n := read?_chars (by decide) (by decide) 0 n
  refine ⟨?_, ?_⟩ <;> rw [htext]
  · exact solid_chars (by decide) (by decide) 0 n
  · -- A text of any other kind has a character that is no decimal digit.
    unfold read?
    split
    case h_5 => rw [hread, Option.map_some]
    all_goals
      rename_i hkind
      simp [hkind, Numeral.read?, digitOf?] at hread

end Operand

/-! ## Mnemonics -/

namespace Instruction

open Listing Operand

/-- The instruction of a name with operands of these kinds. -/
def ofParts? : String → List Operand → Option Instruction
  | "CLS", [] => some clear
  | "RET", [] => some ret
  | "JP", [.marked target] => some (jump (.ofNat target))
  | "CALL", [.marked target] => some (call (.ofNat target))
  | "SE", [.register x, .marked value] => some (skipEqual x (.ofNat value))
  | "SNE", [.register x, .marked value] => some (skipUnequal x (.ofNat value))
  | "SNE", [.register x, .register y] => some (skipDifferent x y)
  | "LD", [.register x, .marked value] => some (set x (.ofNat value))
  | "LD", [.register x, .register y] => some (copy x y)
  | "LD", [.register x, .delay] => some (readDelay x)
  | "LD", [.index, .marked target] => some (setIndex (.ofNat target))
  | "LD", [.delay, .register x] => some (setDelay x)
  | "ADD", [.register x, .marked value] => some (add x (.ofNat value))
  | "ADD", [.index, .register x] => some (addIndex x)
  | "RND", [.register x, .marked mask] => some (random x (.ofNat mask))
  | "DRW", [.register x, .register y, .decimal height] => some (draw x y (.ofNat height))
  | "SKP", [.register x] => some (skipPressed x)
  | "SKNP", [.register x] => some (skipReleased x)
  | _, _ => none

/-- Reads a mnemonic. A name that there is not, or not with these operands, is refused. -/
def ofMnemonic? (text : String) : Option Instruction :=
  match parts text.toList with
  | [] => none
  | name :: operands => (operands.mapM Operand.read?).bind (ofParts? (String.ofList name))

section

variable {name first second third : String} {a b c : Operand}

theorem ofMnemonic?_bare (hname : Solid name.toList) :
    ofMnemonic? name = ofParts? name [] := by
  rw [ofMnemonic?, parts_of_solid hname]
  simp

theorem ofMnemonic?_single (name : String) {named : String} (hname : Solid name.toList)
    (hnamed : named.toList = name.toList ++ [' ']) (ha : Writes first a) :
    ofMnemonic? (named ++ first) = ofParts? name [a] := by
  have hparts : parts (named ++ first).toList = [name.toList, first.toList] := by
    simp [hnamed, parts_blank hname, parts_of_solid ha.solid]
  rw [ofMnemonic?, hparts]
  simp [ha.read]

theorem ofMnemonic?_pair (hname : Solid name.toList) (ha : Writes first a)
    (hb : Writes second b) : ofMnemonic? (pair name first second) = ofParts? name [a, b] := by
  have hparts : parts (pair name first second).toList =
      [name.toList, first.toList, second.toList] := by
    simp [pair, parts_blank hname, parts_comma ha.solid, parts_of_solid hb.solid]
  rw [ofMnemonic?, hparts]
  simp [ha.read, hb.read]

theorem ofMnemonic?_triple (hname : Solid name.toList) (ha : Writes first a)
    (hb : Writes second b) (hc : Writes third c) :
    ofMnemonic? (pair name first second ++ ", " ++ third) = ofParts? name [a, b, c] := by
  have hparts : parts (pair name first second ++ ", " ++ third).toList =
      [name.toList, first.toList, second.toList, third.toList] := by
    simp [pair, parts_blank hname, parts_comma ha.solid, parts_comma hb.solid,
      parts_of_solid hc.solid]
  rw [ofMnemonic?, hparts]
  simp [ha.read, hb.read, hc.read]

end

/-- Every instruction is read back from its mnemonic, also one that no word has. -/
theorem ofMnemonic?_mnemonic (i : Instruction) : ofMnemonic? i.mnemonic = some i := by
  cases i with
  | clear | ret =>
    refine (ofMnemonic?_bare (by decide)).trans ?_
    simp [ofParts?, mnemonic]
  | jump target =>
    refine (ofMnemonic?_single "JP" (by decide) (by decide)
      (writes_marked 3 target.toNat)).trans ?_
    simp [ofParts?]
  | call target =>
    refine (ofMnemonic?_single "CALL" (by decide) (by decide)
      (writes_marked 3 target.toNat)).trans ?_
    simp [ofParts?]
  | skipEqual x value | skipUnequal x value | set x value | add x value | random x value =>
    refine (ofMnemonic?_pair (by decide) (writes_register x) (writes_marked 2 value.toNat)).trans ?_
    simp [ofParts?]
  | copy x y | skipDifferent x y =>
    refine (ofMnemonic?_pair (by decide) (writes_register x) (writes_register y)).trans ?_
    simp [ofParts?]
  | setIndex target =>
    refine (ofMnemonic?_pair (by decide) writes_index (writes_marked 3 target.toNat)).trans ?_
    simp [ofParts?]
  | draw x y height =>
    refine (ofMnemonic?_triple (by decide) (writes_register x) (writes_register y)
      (writes_decimal height.toNat)).trans ?_
    simp [ofParts?]
  | skipPressed x =>
    refine (ofMnemonic?_single "SKP" (by decide) (by decide) (writes_register x)).trans ?_
    simp [ofParts?]
  | skipReleased x =>
    refine (ofMnemonic?_single "SKNP" (by decide) (by decide) (writes_register x)).trans ?_
    simp [ofParts?]
  | readDelay x =>
    refine (ofMnemonic?_pair (by decide) (writes_register x) writes_delay).trans ?_
    simp [ofParts?]
  | setDelay x =>
    refine (ofMnemonic?_pair (by decide) writes_delay (writes_register x)).trans ?_
    simp [ofParts?]
  | addIndex x =>
    refine (ofMnemonic?_pair (by decide) writes_index (writes_register x)).trans ?_
    simp [ofParts?]

theorem mnemonic_injective {i j : Instruction} (h : i.mnemonic = j.mnemonic) : i = j :=
  Numeral.eq_of_reads (ofMnemonic?_mnemonic i) (ofMnemonic?_mnemonic j) h

/-- The line of a word without an instruction is no mnemonic. -/
theorem ofMnemonic?_message (w : Word) : ofMnemonic? (Fault.unknownWord w).message = none := by
  have htext : (Fault.unknownWord w).message.toList =
      "unrecognized".toList ++ ' ' :: ("opcode".toList ++ ' ' ::
        (Numeral.marked 4 w.toNat).toList) := by
    show ("unrecognized opcode " ++ Numeral.marked 4 w.toNat).toList = _
    simp
  have hopcode : Operand.read? "opcode".toList = none := by
    simp [Operand.read?, Numeral.read?, Numeral.digitOf?]
  rw [ofMnemonic?, htext, parts_blank (by decide), parts_blank (by decide),
    parts_of_solid (writes_marked 4 w.toNat).solid]
  simp only [List.mapM_cons, hopcode]
  rfl

/-- A line of a listing tells the instruction of its word, or that there is none. -/
theorem ofMnemonic?_listing (w : Word) : ofMnemonic? w.listing = (decode w).toOption := by
  rw [Word.listing]
  cases h : decode w with
  | ok i => exact ofMnemonic?_mnemonic i
  | error fault =>
    rw [eq_unknownWord_of_decode h]
    exact ofMnemonic?_message w

end Instruction

namespace Word

variable {v w : Word}

theorem listing_of_error {fault : Fault} (h : Instruction.decode w = .error fault) :
    w.listing = "unrecognized opcode " ++ Numeral.marked 4 w.toNat := by
  rw [listing, h, Instruction.eq_unknownWord_of_decode h]
  rfl

theorem listing_injective (h : v.listing = w.listing) : v = w := by
  have hread := Instruction.ofMnemonic?_listing v
  rw [h, Instruction.ofMnemonic?_listing w] at hread
  cases hv : Instruction.decode v with
  | ok i =>
    cases hw : Instruction.decode w with
    | ok j =>
      rw [hv, hw] at hread
      cases hread
      exact (Instruction.word_of_decode hv).symm.trans (Instruction.word_of_decode hw)
    | error fault =>
      rw [hv, hw] at hread
      cases hread
  | error fault =>
    cases hw : Instruction.decode w with
    | ok j =>
      rw [hv, hw] at hread
      cases hread
    | error other =>
      rw [listing_of_error hv, listing_of_error hw, String.append_right_inj] at h
      exact UInt16.toNat_inj.mp (Numeral.marked_injective h)

/-- No two instructions have the same mnemonic, whatever their operands are, and no two words
the same line in a listing. -/
theorem disassembly_loses_nothing :
    (∀ i j : Instruction, i.mnemonic = j.mnemonic → i = j) ∧
      ∀ v w : Word, v.listing = w.listing → v = w := by
  exact ⟨fun i j => Instruction.mnemonic_injective, fun v w => listing_injective⟩

end Word

end ChipEight
