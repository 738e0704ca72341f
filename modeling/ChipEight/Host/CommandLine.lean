import ChipEight.Host.Options
import ChipEight.Numeral

/-! Reading a command line, word by word from the left; the first fault decides.

A value in a word of its own, and the program file, wait until the next word is
known to be an argument: only then are they checked. A word that nothing answers
to is therefore reported in place of a fault in the value before it. -/

namespace ChipEight

/-- Why a command line gives no options. -/
inductive UsageFault where
  /-- A word or letter that nothing answers to, or a second program file. -/
  | unknownArgument
  | repeatedArgument
  | missingValue
  | emptyRom
  | badNumber
  /-- A value for an argument that takes none. -/
  | unwantedValue
  | helpWanted
  | versionWanted
  | missingRom
  deriving DecidableEq, Repr

namespace CommandLine

/-- The arguments that take a value. -/
inductive Setting where
  | hz
  | cycles
  | seed
  | keys
  deriving DecidableEq, Repr

/-- The arguments that take none. -/
inductive Flag where
  | fastForward
  | help
  | version
  deriving DecidableEq, Repr

inductive Argument where
  | setting (setting : Setting)
  | flag (flag : Flag)
  deriving DecidableEq, Repr

namespace Argument

/-- What names an argument behind two dashes. -/
def name : Argument → String
  | setting .hz => "hz"
  | setting .cycles => "cycles"
  | setting .seed => "seed"
  | setting .keys => "keys"
  | flag .fastForward => "fast-forward"
  | flag .help => "help"
  | flag .version => "version"

/-- What names an argument behind one dash. -/
def letter? : Argument → Option Char
  | setting .hz => none
  | setting .cycles => some 'c'
  | setting .seed => some 's'
  | setting .keys => some 'k'
  | flag .fastForward => some 'f'
  | flag .help => some 'h'
  | flag .version => some 'V'

def all : List Argument :=
  [setting .hz, setting .cycles, setting .seed, setting .keys, flag .fastForward, flag .help,
    flag .version]

end Argument

def long? (name : String) : Option Argument := Argument.all.find? fun a => a.name == name

def short? (letter : Char) : Option Argument :=
  Argument.all.find? fun a => a.letter? == some letter

/-- The arguments accepted so far. -/
structure Draft where
  rom : Option String
  hz : Option UInt64
  cycles : Option UInt64
  seed : Option UInt64
  keys : Option String
  fastForward : Bool
  deriving DecidableEq, Repr

/-- What waits to be checked. -/
inductive Pending where
  | nothing
  | rom (name : String)
  /-- A setting, with its value once that has been read. -/
  | setting (setting : Setting) (value : Option String)
  deriving DecidableEq, Repr

structure Reader where
  draft : Draft
  pending : Pending
  deriving DecidableEq, Repr

/-- Digits with at most one plus sign before them, for a number of sixty-four bits. -/
def number? (text : String) : Option UInt64 :=
  let digits := match text.toList with
    | '+' :: rest => rest
    | all => all
  match Numeral.read? 10 digits with
  | some n => if n < UInt64.size then some (UInt64.ofNat n) else none
  | none => none

/-- A number for a setting that has `held` so far. -/
def takeNumber (held : Option UInt64) (text : String) : Except UsageFault UInt64 :=
  match held, number? text with
  | some _, _ => .error .repeatedArgument
  | none, none => .error .badNumber
  | none, some n => .ok n

namespace Draft

def empty : Draft where
  rom := none
  hz := none
  cycles := none
  seed := none
  keys := none
  fastForward := false

def assign (d : Draft) (value : String) : Setting → Except UsageFault Draft
  | .hz => (takeNumber d.hz value).map fun n => { d with hz := some n }
  | .cycles => (takeNumber d.cycles value).map fun n => { d with cycles := some n }
  | .seed => (takeNumber d.seed value).map fun n => { d with seed := some n }
  | .keys =>
    if d.keys.isSome then .error .repeatedArgument else .ok { d with keys := some value }

def raise (d : Draft) : Flag → Except UsageFault Draft
  | .fastForward =>
    if d.fastForward then .error .repeatedArgument else .ok { d with fastForward := true }
  | .help => .error .helpWanted
  | .version => .error .versionWanted

def options (d : Draft) : Except UsageFault Options :=
  match d.rom with
  | none => .error .missingRom
  | some rom => .ok {
      rom
      hz := d.hz.getD Options.defaultHz
      cycles := d.cycles
      seed := d.seed
      keys := d.keys.getD ""
      fastForward := d.fastForward }

end Draft

/-- What a word looks like. -/
inductive Shape where
  /-- Two dashes, and what stands behind them. -/
  | long (name : List Char)
  /-- One dash, and the letters behind it. -/
  | short (letters : List Char)
  | plain
  deriving DecidableEq, Repr

/-- A single dash is no option. -/
def Shape.ofWord (w : String) : Shape :=
  match w.toList with
  | '-' :: '-' :: name => .long name
  | '-' :: letter :: rest => .short (letter :: rest)
  | _ => .plain

namespace Reader

def start : Reader := { draft := .empty, pending := .nothing }

/-- Checks and accepts what waits. -/
def settle (r : Reader) : Except UsageFault Draft :=
  match r.pending with
  | .nothing => .ok r.draft
  | .rom name => if name = "" then .error .emptyRom else .ok { r.draft with rom := some name }
  | .setting _ none => .error .missingValue
  | .setting setting (some value) => r.draft.assign value setting

/-- A program file has been named, whether it was accepted yet or not. -/
def hasRom (r : Reader) : Bool :=
  match r.pending with
  | .rom _ => true
  | _ => r.draft.rom.isSome

def accept (r : Reader) (change : Draft → Except UsageFault Draft) : Except UsageFault Reader := do
  let draft ← change (← r.settle)
  return { draft, pending := .nothing }

def await (r : Reader) (pending : Pending) : Except UsageFault Reader := do
  return { draft := ← r.settle, pending }

/-- The program file. -/
def operand (r : Reader) (w : String) : Except UsageFault Reader :=
  if r.hasRom then .error .unknownArgument else r.await (.rom w)

/-- The word behind two dashes: a name, and a value if there is an equals sign. -/
def long (r : Reader) (w : List Char) : Except UsageFault Reader :=
  let name := String.ofList (w.takeWhile (· != '='))
  match long? name, w.dropWhile (· != '=') with
  | none, _ => .error .unknownArgument
  | some (.setting setting), [] => r.await (.setting setting none)
  | some (.setting setting), _ :: value =>
    r.accept (·.assign (String.ofList value) setting)
  | some (.flag flag), [] => r.accept (·.raise flag)
  | some (.flag _), _ :: _ => .error .unwantedValue

/-- The letters behind one dash. What follows a setting in the same word is its
value, less one equals sign. -/
def short (r : Reader) : List Char → Except UsageFault Reader
  | [] => .ok r
  | letter :: rest =>
    match short? letter with
    | none => .error .unknownArgument
    | some (.flag flag) => do (← r.accept (·.raise flag)).short rest
    | some (.setting setting) =>
      match rest with
      | [] => r.await (.setting setting none)
      | c :: value =>
        r.accept (·.assign (String.ofList (if c = '=' then value else c :: value)) setting)

/-- A word that is no option is the value that the setting before it waits for, or the program
file. -/
def plain (r : Reader) (w : String) : Except UsageFault Reader :=
  match r.pending with
  | .setting setting none => .ok { r with pending := .setting setting (some w) }
  | _ => r.operand w

/-- A word before the end of the options. -/
def word (r : Reader) (w : String) : Except UsageFault Reader :=
  match Shape.ofWord w with
  | .long name => r.long name
  | .short letters => r.short letters
  | .plain => r.plain w

/-- Two dashes alone end the options. -/
def words (r : Reader) : List String → Except UsageFault Reader
  | [] => .ok r
  | w :: ws =>
    if w = "--" then ws.foldlM operand r
    else do (← r.word w).words ws

/-- The options behind the rest of a line. -/
def read (r : Reader) (line : List String) : Except UsageFault Options := do
  let reader ← r.words line
  (← reader.settle).options

end Reader

end CommandLine

/-- The options that a command line asks for. -/
def Options.read (line : List String) : Except UsageFault Options :=
  CommandLine.Reader.start.read line

end ChipEight
