import ChipEight.Host.CommandLine
import ChipEight.Host.Session

/-! How the program ends: its exit code and what it writes. -/

namespace ChipEight

structure Exit where
  code : UInt8
  stdout : String
  stderr : String
  deriving DecidableEq, Repr

namespace Exit

def usage : String :=
  "Usage: chip8 [OPTIONS] <ROM>\n" ++
  "\n" ++
  "Arguments:\n" ++
  "  <ROM>  Path to the ROM file to run\n" ++
  "\n" ++
  "Options:\n" ++
  "      --hz <HZ>          CPU cycles per second [default: 500]\n" ++
  "  -c, --cycles <CYCLES>  Stop after this many cycles\n" ++
  "  -s, --seed <SEED>      Seed for the random opcode\n" ++
  "  -k, --keys <KEYS>      Keys held down for the whole run, e.g. \"qe\" [default: ]\n" ++
  "  -f, --fast-forward     Ignore the clock and run as fast as possible\n" ++
  "  -h, --help             Print help\n" ++
  "  -V, --version          Print version\n"

/-- The error line for a command line that gives no options. -/
def complaint : UsageFault → String
  | .unknownArgument => "unexpected argument found"
  | .repeatedArgument => "an argument cannot be used multiple times"
  | .missingValue | .emptyRom => "a value is required but none was supplied"
  | .badNumber => "invalid value: not a number of 64 bits"
  | .unwantedValue => "unexpected value for an argument that takes none"
  | .missingRom => "the following required arguments were not provided: <ROM>"
  | .helpWanted | .versionWanted => ""

/-- Questions are answered; anything else that is wrong with the line is code 2. -/
def ofUsage : UsageFault → Exit
  | .helpWanted =>
    { code := 0, stderr := ""
      stdout := "Runs a Chip-8 ROM headlessly and prints the final frame\n\n" ++ usage }
  | .versionWanted => { code := 0, stdout := "chip8 0.1.0\n", stderr := "" }
  | fault => { code := 2, stdout := "", stderr := "error: " ++ complaint fault ++ "\n\n" ++ usage }

/-- A failure as it is reported, with its cause in a paragraph of its own. -/
def describe (failure : Failure) : String :=
  let cause := match failure.cause with
    | some text => "\n\nCaused by:\n    " ++ text
    | none => ""
  "Error: " ++ failure.message ++ cause ++ "\n"

def ofReport (report : Report) : Exit :=
  match report.failure with
  | none => { code := 0, stdout := report.shown, stderr := "" }
  | some failure => { code := 1, stdout := report.shown, stderr := describe failure }

end Exit

end ChipEight
