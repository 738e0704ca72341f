import ChipEight.Host.Exit

/-! The program. It reads the file that the command line names, runs the session
in the time that it is meant to take, and writes what the session leaves. Where the
random bytes come from is up to whoever starts it. -/

namespace ChipEight

def readFailure : IO.Error → ReadFailure
  | .noFileOrDirectory _ _ _ => .missing
  | .permissionDenied _ code reason | .inappropriateType _ code reason
  | .invalidArgument _ code reason | .resourceExhausted _ code reason =>
    { reason, code := code.toNat }
  | .otherError code reason => { reason, code := code.toNat }
  | failure => { reason := toString failure, code := 0 }

def readFile (name : String) : IO (Except ReadFailure (List UInt8)) := do
  try
    return .ok (← IO.FS.readBinFile name).toList
  catch failure =>
    return .error (readFailure failure)

/-- Waits until the steps of a report have taken their time. -/
def pace (options : Options) (report : Report) (begun : Nat) : IO Unit := do
  unless options.fastForward || options.hz = 0 do
    let due := report.cycles * (1000000000 / options.hz.toNat)
    let elapsed := (← IO.monoNanosNow) - begun
    if elapsed < due then
      IO.sleep (UInt32.ofNat (min ((due - elapsed) / 1000000) (UInt32.size - 1)))

def deliver (exit : Exit) : IO UInt32 := do
  IO.print exit.stdout
  IO.eprint exit.stderr
  return exit.code.toUInt32

/-- The program with the random sources that `seeded` gives. Without a seed on the
line the system gives one. -/
def perform {σ : Type} [RandomSource σ] (seeded : UInt64 → σ) (line : List String) :
    IO UInt32 := do
  match Options.read line with
  | .error fault => deliver (Exit.ofUsage fault)
  | .ok options =>
    let begun ← IO.monoNanosNow
    let contents ← readFile options.rom
    let fresh := seeded (UInt64.ofNat (← IO.rand 0 (UInt64.size - 1)))
    let report := Session.run seeded fresh (fun _ => contents) false options
    pace options report begun
    deliver (Exit.ofReport report)

/-- The generator of the standard library, a byte at a time. -/
instance : RandomSource StdGen where
  next generator :=
    let (n, rest) := randNat generator 0 255
    (UInt8.ofNat n, rest)

end ChipEight

open ChipEight in
def main : List String → IO UInt32 := perform fun seed => mkStdGen seed.toNat
