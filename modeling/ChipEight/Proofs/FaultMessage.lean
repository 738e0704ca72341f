import ChipEight.Fault
import ChipEight.Proofs.Columns
import Mathlib.Data.List.Basic

/-! Messages of faults read back. A message has the form of its kind of fault: fixed texts, and
the numbers of the fault between them. No fixed text goes on with a digit, so a number ends where
its digits end, and no message opens as one of another kind does. So the kind and the numbers are
read back from a message, whatever the numbers are, and no two faults have the same one. -/

namespace ChipEight

open Numeral

/-! ## Numbers in capital digits -/

namespace Numeral

/-- The text is this number in base sixteen, in capital digits. There are as many as the number
needs, and zeros before them only up to the width that is asked for. -/
structure Hexadecimal (width n : Nat) (text : List Char) : Prop where
  capital : ∀ c ∈ text, ('0' ≤ c ∧ c ≤ '9') ∨ ('A' ≤ c ∧ c ≤ 'F')
  wide : width ≤ text.length
  uncut : n < Nat.pow 16 text.length
  shortest : text.length = width ∨ Nat.pow 16 (text.length - 1) ≤ n
  read : read? 16 text = some n

theorem lt_pow_length_digits {base : Nat} (lo : 2 ≤ base) (n : Nat) :
    n < base.pow (digits base n).length := by
  fun_induction digits base n with
  | case1 n h =>
    have hn : n < base := by omega
    simpa using hn
  | case2 n h ih =>
    rw [List.length_append, List.length_singleton]
    show n < base.pow (digits base (n / base)).length * base
    exact (Nat.div_lt_iff_lt_mul (by omega)).mp ih

theorem digitChar_capital : ∀ d < 16,
    ('0' ≤ digitChar d ∧ digitChar d ≤ '9') ∨ ('A' ≤ digitChar d ∧ digitChar d ≤ 'F') := by
  decide

theorem hexadecimal_chars {width : Nat} (hwidth : 0 < width) (n : Nat) :
    Hexadecimal width n (chars 16 width n) := by
  have lo : 2 ≤ 16 := by omega
  have hlength := length_chars 16 width n
  refine ⟨?_, ?_, ?_, ?_, read?_chars lo (by omega) width n⟩
  · intro c hc
    obtain ⟨k, hchars, hdigits⟩ := exists_chars_eq_map lo width n
    rw [hchars] at hc
    obtain ⟨d, hd, rfl⟩ := List.mem_map.mp hc
    exact digitChar_capital d (hdigits d hd)
  · omega
  · have hpow : Nat.pow 16 (digits 16 n).length ≤ Nat.pow 16 (chars 16 width n).length :=
      Nat.pow_le_pow_right (by omega) (by omega)
    exact Nat.lt_of_lt_of_le (lt_pow_length_digits lo n) hpow
  · by_cases hfill : (chars 16 width n).length = width
    · exact .inl hfill
    · -- The digits alone are wider than asked for, so a smaller number would have fewer of them.
      refine .inr (Nat.not_lt.mp fun hlt => ?_)
      have hk : (chars 16 width n).length - 1 = (chars 16 width n).length - 2 + 1 := by omega
      rw [hk] at hlt
      have hdigits := length_digits_le _ hlt
      omega

end Numeral

/-! ## Texts with numbers in them -/

/-- A numeral in a text, and the fixed text behind it, which does not begin with a digit. -/
structure Form.Field where
  base : Nat
  width : Nat
  closing : String
  lo : 2 ≤ base := by omega
  hi : base ≤ 36 := by omega
  clear : (closing.toList.head?.any fun c => (digitOf? base c).isSome) = false := by decide

namespace Form.Field

def write (field : Field) (n : Nat) : List Char :=
  chars field.base field.width n ++ field.closing.toList

def isDigit (field : Field) (c : Char) : Bool := (digitOf? field.base c).isSome

/-- Reads the numeral and the text behind it, and gives what is left. -/
def read? (field : Field) (text : List Char) : Option (Nat × List Char) := do
  let n ← Numeral.read? field.base (text.takeWhile field.isDigit)
  let rest ← (text.dropWhile field.isDigit).dropPrefix? field.closing.toList
  return (n, rest)

/-- A digit cannot follow a numeral: where the field has no text of its own behind the numeral,
nothing else may stand there either. -/
theorem isDigit_head {field : Field} {rest : List Char} (hrest : field.closing = "" → rest = []) :
    ∀ c ∈ (field.closing.toList ++ rest).head?, field.isDigit c = false := by
  intro c hc
  have hclear := field.clear
  cases hclosing : field.closing.toList with
  | nil =>
    rw [hclosing, hrest (String.toList_eq_nil_iff.mp hclosing)] at hc
    cases hc
  | cons d ds =>
    rw [hclosing] at hc hclear
    cases hc
    exact hclear

theorem read?_write {field : Field} {rest : List Char} (hrest : field.closing = "" → rest = [])
    (n : Nat) : field.read? (field.write n ++ rest) = some (n, rest) := by
  have hdigits : ∀ c ∈ chars field.base field.width n, field.isDigit c = true := by
    intro c hc
    exact isSome_digitOf?_of_mem_chars field.lo field.hi hc
  obtain ⟨hnumeral, hbehind⟩ := takeWhile_dropWhile_append hdigits (isDigit_head hrest)
  rw [read?, write, List.append_assoc, hnumeral, hbehind, read?_chars field.lo field.hi,
    List.dropPrefix?_append_of_beq _ (BEq.refl _)]
  rfl

end Form.Field

/-- A text with numerals in it, which a fixed text opens. -/
structure Form where
  opening : String
  fields : List Form.Field

namespace Form

/-- Only the last field may have no text behind its numeral. -/
def Divided : List Field → Prop
  | [] => True
  | field :: fields => (field.closing = "" → fields = []) ∧ Divided fields

def write (form : Form) (ns : List Nat) : List Char :=
  form.opening.toList ++ (List.zipWith Field.write form.fields ns).flatten

def readFields? : List Field → List Char → Option (List Nat)
  | [], text => if text = [] then some [] else none
  | field :: fields, text => do
    let (n, rest) ← field.read? text
    let ns ← readFields? fields rest
    return n :: ns

/-- The numbers in a text of this form. -/
def read? (form : Form) (text : List Char) : Option (List Nat) := do
  let rest ← text.dropPrefix? form.opening.toList
  readFields? form.fields rest

theorem readFields?_write {fields : List Field} (hdivided : Divided fields) {ns : List Nat}
    (hlength : ns.length = fields.length) :
    readFields? fields (List.zipWith Field.write fields ns).flatten = some ns := by
  induction fields generalizing ns with
  | nil =>
    obtain rfl := List.length_eq_zero_iff.mp hlength
    rfl
  | cons field fields ih =>
    obtain ⟨n, ns, rfl⟩ := List.exists_cons_of_length_eq_add_one hlength
    have hrest : field.closing = "" → (List.zipWith Field.write fields ns).flatten = [] := by
      intro hclosing
      rw [hdivided.1 hclosing]
      rfl
    have hns := ih hdivided.2 (Nat.succ.inj hlength)
    rw [List.zipWith_cons_cons, List.flatten_cons, readFields?, Field.read?_write hrest]
    simp only [bind, Option.bind_some, hns]
    rfl

theorem read?_write {form : Form} (hdivided : Divided form.fields) {ns : List Nat}
    (hlength : ns.length = form.fields.length) : form.read? (form.write ns) = some ns := by
  rw [read?, write, List.dropPrefix?_append_of_beq _ (BEq.refl _)]
  exact readFields?_write hdivided hlength

theorem opening_of_read? {form : Form} {text : List Char} {ns : List Nat}
    (h : form.read? text = some ns) : form.opening.toList <+: text := by
  obtain ⟨rest, hrest, -⟩ := Option.bind_eq_some_iff.mp h
  obtain ⟨opening, rfl, hopening⟩ := List.dropPrefix?_eq_some_iff.mp hrest
  rw [eq_of_beq hopening]
  exact List.prefix_append _ _

end Form

/-! ## Kinds of faults -/

namespace Fault

inductive Kind where
  | unknownWord
  | addressOutOfRange
  | programTooLarge
  | stackFull
  | stackEmpty
  | pixelOffScreen
  | noSuchKey
  | indexOverflow
  deriving DecidableEq, Repr

namespace Kind

def all : List Kind :=
  [unknownWord, addressOutOfRange, programTooLarge, stackFull, stackEmpty, pixelOffScreen,
    noSuchKey, indexOverflow]

/-- The form of the messages for faults of this kind. -/
def form : Kind → Form
  | unknownWord => ⟨"unrecognized opcode 0x", [{ base := 16, width := 4, closing := "" }]⟩
  | addressOutOfRange =>
    ⟨"memory access out of bounds at address 0x", [{ base := 16, width := 4, closing := "" }]⟩
  | programTooLarge =>
    ⟨"program is too large (", [{ base := 10, width := 0, closing := " bytes), max size is " },
      { base := 10, width := 0, closing := " bytes" }]⟩
  | stackFull => ⟨"stack overflow: call nested deeper than the stack allows", []⟩
  | stackEmpty => ⟨"stack underflow: return with an empty call stack", []⟩
  | pixelOffScreen =>
    ⟨"pixel (", [{ base := 10, width := 0, closing := ", " },
      { base := 10, width := 0, closing := ") is outside the display" }]⟩
  | noSuchKey => ⟨"key 0x", [{ base := 16, width := 2, closing := " is not on the keypad" }]⟩
  | indexOverflow => ⟨"index register overflowed 16 bits", []⟩

/-- The fault of this kind with these numbers. -/
def fault? : Kind → List Nat → Option Fault
  | unknownWord, [word] => some (.unknownWord (.ofNat word))
  | addressOutOfRange, [address] => some (.addressOutOfRange address)
  | programTooLarge, [size, limit] => some (.programTooLarge size limit)
  | stackFull, [] => some .stackFull
  | stackEmpty, [] => some .stackEmpty
  | pixelOffScreen, [x, y] => some (.pixelOffScreen x y)
  | noSuchKey, [key] => some (.noSuchKey (.ofNat key))
  | indexOverflow, [] => some .indexOverflow
  | _, _ => none

theorem mem_all (kind : Kind) : kind ∈ all := by
  cases kind <;> decide

theorem divided_fields (kind : Kind) : Form.Divided kind.form.fields := by
  cases kind <;> simp [form, Form.Divided]

/-- No message opens as one of another kind does. -/
theorem eq_of_opening_prefix {j k : Kind}
    (h : j.form.opening.toList <+: k.form.opening.toList) : j = k := by
  revert h
  cases j <;> cases k <;> decide

end Kind

def kind : Fault → Kind
  | unknownWord _ => .unknownWord
  | addressOutOfRange _ => .addressOutOfRange
  | programTooLarge _ _ => .programTooLarge
  | stackFull => .stackFull
  | stackEmpty => .stackEmpty
  | pixelOffScreen _ _ => .pixelOffScreen
  | noSuchKey _ => .noSuchKey
  | indexOverflow => .indexOverflow

/-- The numbers that the message shows. -/
def numbers : Fault → List Nat
  | unknownWord word => [word.toNat]
  | addressOutOfRange address => [address]
  | programTooLarge size limit => [size, limit]
  | pixelOffScreen x y => [x, y]
  | noSuchKey key => [key.toNat]
  | stackFull | stackEmpty | indexOverflow => []

theorem length_numbers (f : Fault) : f.numbers.length = f.kind.form.fields.length := by
  cases f <;> rfl

theorem fault?_numbers (f : Fault) : f.kind.fault? f.numbers = some f := by
  cases f <;> simp [kind, numbers, Kind.fault?]

theorem toList_message (f : Fault) : f.message.toList = f.kind.form.write f.numbers := by
  cases f with
  | unknownWord word =>
    show ("unrecognized opcode " ++ marked 4 word.toNat).toList = _
    simp [marked, hex, kind, numbers, Kind.form, Form.write, Form.Field.write]
  | addressOutOfRange address =>
    show ("memory access out of bounds at address " ++ marked 4 address).toList = _
    simp [marked, hex, kind, numbers, Kind.form, Form.write, Form.Field.write]
  | programTooLarge size limit =>
    show ("program is too large (" ++ decimal size ++ " bytes), max size is " ++ decimal limit ++
      " bytes").toList = _
    simp [decimal, kind, numbers, Kind.form, Form.write, Form.Field.write]
  | pixelOffScreen x y =>
    show ("pixel (" ++ decimal x ++ ", " ++ decimal y ++ ") is outside the display").toList = _
    simp [decimal, kind, numbers, Kind.form, Form.write, Form.Field.write]
  | noSuchKey key =>
    show ("key " ++ marked 2 key.toNat ++ " is not on the keypad").toList = _
    simp [marked, hex, kind, numbers, Kind.form, Form.write, Form.Field.write]
  | stackFull | stackEmpty | indexOverflow => exact (List.append_nil _).symm

/-- Reads a message. A text that no fault has is refused. -/
def ofMessage? (message : String) : Option Fault :=
  Kind.all.findSome? fun kind => (kind.form.read? message.toList).bind kind.fault?

theorem kind_of_read? {f : Fault} {other : Kind} {ns : List Nat}
    (h : other.form.read? f.message.toList = some ns) : other = f.kind := by
  have hown : f.kind.form.opening.toList <+: f.message.toList := by
    rw [toList_message]
    exact List.prefix_append _ _
  rcases List.prefix_or_prefix_of_prefix (Form.opening_of_read? h) hown with hopening | hopening
  · exact Kind.eq_of_opening_prefix hopening
  · exact (Kind.eq_of_opening_prefix hopening).symm

theorem ofMessage?_message (f : Fault) : ofMessage? f.message = some f := by
  obtain ⟨before, behind, hall, hbefore⟩ := List.eq_append_cons_of_mem (Kind.mem_all f.kind)
  refine List.findSome?_eq_some_iff.mpr ⟨before, f.kind, behind, hall, ?_, ?_⟩
  · rw [toList_message, Form.read?_write f.kind.divided_fields f.length_numbers]
    exact f.fault?_numbers
  · intro other hmem
    cases h : other.form.read? f.message.toList with
    | none => rfl
    | some ns =>
      rw [kind_of_read? h] at hmem
      exact absurd hmem hbefore

/-- Every fault is read back from its message, so two faults with the same message are the same.
Words and addresses are shown in four capital digits of base sixteen or more, and keys in two or
more: as many as the number needs, from which it is read back. -/
theorem messages_tell_faults_apart :
    Function.Injective message ∧
      (∀ f : Fault, ofMessage? f.message = some f) ∧
      (∀ word : Word, ∃ text, Hexadecimal 4 word.toNat text ∧
        (unknownWord word).message = "unrecognized opcode 0x" ++ String.ofList text) ∧
      (∀ address : Nat, ∃ text, Hexadecimal 4 address text ∧
        (addressOutOfRange address).message =
          "memory access out of bounds at address 0x" ++ String.ofList text) ∧
      ∀ key : UInt8, ∃ text, Hexadecimal 2 key.toNat text ∧
        (noSuchKey key).message = "key 0x" ++ String.ofList text ++ " is not on the keypad" := by
  refine ⟨fun f g h => ?_, ofMessage?_message, fun word => ?_, fun address => ?_, fun key => ?_⟩
  · exact eq_of_reads f.ofMessage?_message g.ofMessage?_message h
  · refine ⟨chars 16 4 word.toNat, hexadecimal_chars (by omega) _, String.toList_inj.mp ?_⟩
    rw [toList_message]
    simp [kind, numbers, Kind.form, Form.write, Form.Field.write]
  · refine ⟨chars 16 4 address, hexadecimal_chars (by omega) _, String.toList_inj.mp ?_⟩
    rw [toList_message]
    simp [kind, numbers, Kind.form, Form.write, Form.Field.write]
  · refine ⟨chars 16 2 key.toNat, hexadecimal_chars (by omega) _, String.toList_inj.mp ?_⟩
    rw [toList_message]
    simp [kind, numbers, Kind.form, Form.write, Form.Field.write]

/-- The greatest address of sixty-four bits is shown in all its digits, and not by its last four. -/
theorem messages_tell_faults_apart_greatest_address :
    let f := addressOutOfRange 18446744073709551615
    f.message = "memory access out of bounds at address 0xFFFFFFFFFFFFFFFF" ∧
      ofMessage? f.message = some f ∧ f.message ≠ (addressOutOfRange 65535).message := by
  intro f
  have hmessage : f.message = "memory access out of bounds at address 0xFFFFFFFFFFFFFFFF" := by
    decide +kernel
  have hne : f ≠ addressOutOfRange 65535 := by decide
  obtain ⟨hinjective, hread, -⟩ := messages_tell_faults_apart
  exact ⟨hmessage, hread f, hinjective.ne hne⟩

end Fault

end ChipEight
