import ChipEight.Display.Picture
import ChipEight.Host.Keypad
import ChipEight.Host.Options
import ChipEight.Machine.Events
import ChipEight.Machine.Run

/-! A session: a program is read, loaded and stepped with some keys held down,
and the last frame is shown as text. Everything is checked before the first
step, in a fixed order; once stepping has begun the frame is shown whether the run
ends at its limit or in a fault. -/

namespace ChipEight

/-- Why a file has no contents, in the words and by the number of the system. -/
structure ReadFailure where
  reason : String
  code : Nat
  deriving DecidableEq, Repr

namespace ReadFailure

def missing : ReadFailure := { reason := "No such file or directory", code := 2 }

def message (f : ReadFailure) : String :=
  f.reason ++ " (os error " ++ Numeral.decimal f.code ++ ")"

end ReadFailure

/-- Why a session failed. -/
inductive Failure where
  | zeroHz
  | unreadable (rom : String) (reason : ReadFailure)
  | unloadable (rom : String) (fault : Fault)
  | unmappedKey (key : Char)
  /-- A fault of the machine, which is reported as it is. -/
  | stopped (fault : Fault)
  deriving DecidableEq, Repr

namespace Failure

def message : Failure → String
  | zeroHz => "--hz must be greater than zero"
  | unreadable rom _ => "unable to read ROM " ++ rom
  | unloadable rom _ => "unable to load ROM " ++ rom
  | unmappedKey key => Keypad.quoted key ++ " is not mapped to the keypad"
  | stopped fault => fault.message

/-- What lies behind a failure, when the message does not say it. -/
def cause : Failure → Option String
  | unreadable _ reason => some reason.message
  | unloadable _ fault => some fault.message
  | zeroHz | unmappedKey _ | stopped _ => none

end Failure

/-- What a session leaves behind. -/
structure Report where
  failure : Option Failure
  cycles : Nat
  /-- The last frame as text, or nothing if no step was due or the run crashed. -/
  shown : String
  events : List Event

namespace Session

variable {σ : Type}

/-- The machine with the keys of a text pressed one after another, or the first failure: a
character that stands for no key, or a key that the machine does not have. -/
def hold (m : Machine σ) : List Char → Except Failure (Machine σ)
  | [] => .ok m
  | c :: rest =>
    match Keypad.key? c with
    | none => .error (.unmappedKey c)
    | some key =>
      match m.press (UInt8.ofNat key.val) with
      | .error fault => .error (.stopped fault)
      | .ok next => hold next rest

/-- The session before its first step: the machine that is to run, and the
events so far. -/
def prepare (source : σ) (files : String → Except ReadFailure (List UInt8)) (o : Options) :
    Except Failure (Machine σ) × List Event :=
  if o.hz = 0 then (.error .zeroHz, [])
  else match files o.rom with
    | .error reason => (.error (.unreadable o.rom reason), [])
    | .ok image =>
      match Memory.zero.load image with
      | .error fault => (.error (.unloadable o.rom fault), [])
      | .ok memory =>
        (hold (Machine.ofMemory memory source) o.keys.toList,
          [.loaded image.length, .opened o.rom image.length])

/-- The events of an attempted step, less those that trace execution unless
`tracing` asks for them. -/
def noteAttempt (tracing : Bool) (notes : Array Event) (a : Attempt σ) : Array Event :=
  let own := (a.before.eventsOfStep a.result).filter fun e => tracing || e.level != .trace
  match a.result with
  | .ok { beep := true, .. } => (notes ++ own).push (.beepAt a.number)
  | _ => notes ++ own

/-- The last event of a run, unless it crashed. -/
def ending {α : Type} (run : Run σ α) : List Event :=
  match run.stop with
  | none => [.finished run.cycles]
  | some (.fault _) => [.stopped run.cycles run.machine.state.pc]
  | some .crash => []

variable [RandomSource σ]

/-- Steps a machine up to the limit, if there is one, or to its first fault. -/
def drive (tracing : Bool) (limit : Option UInt64) (m : Machine σ) : Run σ (List Event) :=
  let run := m.loop (noteAttempt tracing) (limit.map UInt64.toNat) 0 #[]
  { run with notes := run.notes.toList ++ ending run }

/-- A session with this random source. -/
def runWith (source : σ) (files : String → Except ReadFailure (List UInt8)) (tracing : Bool)
    (o : Options) : Report :=
  match prepare source files o with
  | (.error failure, events) => { failure := some failure, cycles := 0, shown := "", events }
  | (.ok machine, events) =>
    let run := drive tracing o.cycles machine
    { failure := run.fault.map .stopped
      cycles := run.cycles
      shown := if run.stop = some .crash then "" else run.machine.state.frame.text
      events := events ++ run.notes }

/-- A session with the random source of the seed that the options give, or else with `fresh`. -/
def run (seeded : UInt64 → σ) (fresh : σ) (files : String → Except ReadFailure (List UInt8))
    (tracing : Bool) (o : Options) : Report :=
  runWith ((o.seed.map seeded).getD fresh) files tracing o

end Session

end ChipEight
