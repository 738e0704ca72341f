/-! What a run is asked to do. -/

namespace ChipEight

structure Options where
  /-- The name of the program file. -/
  rom : String
  /-- Steps per second. -/
  hz : UInt64
  /-- The number of steps after which to stop; without it only a fault does. -/
  cycles : Option UInt64
  /-- The seed of the random source; without it runs differ. -/
  seed : Option UInt64
  /-- The keys that are held down, one character each. -/
  keys : String
  /-- Without regard to the clock. -/
  fastForward : Bool
  deriving DecidableEq, Repr

namespace Options

/-- How long a step takes unless the line says otherwise, in nanoseconds. -/
def stepTime : Nat := 2000000

def defaultHz : UInt64 := UInt64.ofNat (1000000000 / stepTime)

end Options

end ChipEight
