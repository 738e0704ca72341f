import ChipEight.Host.CommandLine

/-! What the program relies on in whatever parses its command line. Two dashes end the options;
what no word names is as it is by default; a long option takes the value that is attached to it;
a flag is raised by its name or by its letter. Each rule tells what one word in front of a line
adds to it, and none of them speaks of the order of words. -/

namespace ChipEight

open Numeral

namespace CommandLine

/-! ## Arguments and the words that name them -/

/-- An argument with its value. -/
inductive Item where
  | hz (n : UInt64)
  | cycles (n : UInt64)
  | seed (n : UInt64)
  | keys (text : String)
  | fastForward
  deriving DecidableEq, Repr

def Item.argument : Item → Argument
  | hz _ => .setting .hz
  | cycles _ => .setting .cycles
  | seed _ => .setting .seed
  | keys _ => .setting .keys
  | fastForward => .flag .fastForward

/-- The value that a text gives to a setting. Numbers of sixty-four bits are in decimal digits. -/
inductive Setting.Reads : Setting → String → Item → Prop where
  | hz {text : String} {n : UInt64} (h : read? 10 text.toList = some n.toNat) :
      Reads .hz text (.hz n)
  | cycles {text : String} {n : UInt64} (h : read? 10 text.toList = some n.toNat) :
      Reads .cycles text (.cycles n)
  | seed {text : String} {n : UInt64} (h : read? 10 text.toList = some n.toNat) :
      Reads .seed text (.seed n)
  | keys (text : String) : Reads .keys text (.keys text)

theorem Setting.Reads.argument_eq {setting : Setting} {text : String} {item : Item}
    (h : setting.Reads text item) : item.argument = .setting setting := by
  cases h <;> rfl

/-- A word that names an argument: by its name behind two dashes, alone or with a value behind
an equals sign, or by its letter among those behind one dash. -/
inductive Names (a : Argument) : String → Prop where
  | alone : Names a ("--" ++ a.name)
  | attached (text : String) : Names a ("--" ++ a.name ++ "=" ++ text)
  | letter {c : Char} {letters : List Char} (hletter : a.letter? = some c) (hmem : c ∈ letters)
      (hhead : letters.head? ≠ some '-') : Names a (String.ofList ('-' :: letters))

/-- A word of the line names the argument, before the two dashes that end the options. -/
def Mentions (line : List String) (a : Argument) : Prop :=
  ∃ w ∈ line.takeWhile (· != "--"), Names a w

end CommandLine

open CommandLine

namespace Options

/-- What an argument decides is as it is by default. -/
def HasDefault (o : Options) : Argument → Prop
  | .setting .hz => o.hz = defaultHz
  | .setting .cycles => o.cycles = none
  | .setting .seed => o.seed = none
  | .setting .keys => o.keys = ""
  | .flag .fastForward => o.fastForward = false
  | .flag .help | .flag .version => True

def put (o : Options) : Item → Options
  | .hz n => { o with hz := n }
  | .cycles n => { o with cycles := some n }
  | .seed n => { o with seed := some n }
  | .keys text => { o with keys := text }
  | .fastForward => { o with fastForward := true }

end Options

/-- The rules that the program relies on. -/
structure CommandLine.Rules {ε : Type} (parse : List String → Except ε Options) : Prop where
  /-- The word behind two dashes is the program file, whatever it looks like; only an empty one
  is none. -/
  ended : ∀ rom : String, rom ≠ "" → ∃ o, parse ["--", rom] = .ok o ∧ o.rom = rom
  /-- What no word names is as it is by default. -/
  absent : ∀ (line : List String) (o : Options) (a : Argument),
    parse line = .ok o → ¬ Mentions line a → o.HasDefault a
  /-- A setting takes the value that is attached to its name, unless it is named again. -/
  attached : ∀ (setting : Setting) (text : String) (item : Item) (line : List String) (o : Options),
    setting.Reads text item → parse line = .ok o → ¬ Mentions line (.setting setting) →
    parse (("--" ++ (Argument.setting setting).name ++ "=" ++ text) :: line) = .ok (o.put item)
  /-- The flag is raised by its name, unless it is named again. -/
  raised : ∀ (line : List String) (o : Options),
    parse line = .ok o → ¬ Mentions line (.flag .fastForward) →
    parse (("--" ++ (Argument.flag .fastForward).name) :: line) = .ok (o.put .fastForward)
  /-- The letter of the flag does what its name does. -/
  lettered : ∀ (c : Char) (line : List String) (o : Options),
    (Argument.flag .fastForward).letter? = some c →
    parse line = .ok o → ¬ Mentions line (.flag .fastForward) →
    parse (String.ofList ['-', c] :: line) = .ok (o.put .fastForward)

end ChipEight
