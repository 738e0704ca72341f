import ChipEight.Numeral

/-! The hexadecimal keypad, laid over the left four columns of a keyboard:

    1 2 3 C        1 2 3 4
    4 5 6 D   is   Q W E R
    7 8 9 E        A S D F
    A 0 B F        Z X C V

Small and capital letters are the same key; only ASCII letters have both forms. -/

namespace ChipEight.Keypad

/-- The key that a character stands for. -/
def key? (c : Char) : Option (Fin 16) :=
  match c.toUpper with
  | 'X' => some 0x0
  | '1' => some 0x1
  | '2' => some 0x2
  | '3' => some 0x3
  | 'Q' => some 0x4
  | 'W' => some 0x5
  | 'E' => some 0x6
  | 'A' => some 0x7
  | 'S' => some 0x8
  | 'D' => some 0x9
  | 'Z' => some 0xA
  | 'C' => some 0xB
  | '4' => some 0xC
  | 'R' => some 0xD
  | 'F' => some 0xE
  | 'V' => some 0xF
  | _ => none

/-- The characters of the keyboard row by row, each with the key that it stands for. -/
def layout : List (Char × Fin 16) :=
  [('1', 0x1), ('2', 0x2), ('3', 0x3), ('4', 0xC),
   ('q', 0x4), ('w', 0x5), ('e', 0x6), ('r', 0xD),
   ('a', 0x7), ('s', 0x8), ('d', 0x9), ('f', 0xE),
   ('z', 0xA), ('x', 0x0), ('c', 0xB), ('v', 0xF)]

/-- The control characters: those below the blank, and delete with the block
that follows it. -/
def isControl (c : Char) : Bool := c.toNat < 32 || (127 ≤ c.toNat && c.toNat < 160)

/-- A number in base sixteen with small letters, in braces. -/
def braced (n : Nat) : String :=
  "\x7b" ++ String.ofList ((Numeral.chars 16 1 n).map Char.toLower) ++ "\x7d"

/-- A character in single quotes, in a form that can be seen. -/
def quoted (c : Char) : String :=
  let body :=
    if c.toNat = 0 then "\\0"
    else if c = '\t' then "\\t"
    else if c = '\n' then "\\n"
    else if c = '\r' then "\\r"
    else if c = '\\' then "\\\\"
    else if c.toNat = 39 then "\\'"
    else if isControl c then "\\u" ++ braced c.toNat
    else c.toString
  "'" ++ body ++ "'"

end ChipEight.Keypad
