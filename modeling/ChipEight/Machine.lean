import ChipEight.Machine.Execution
import ChipEight.Machine.RandomSource

/-! The machine: a memory, a state and a source of random bytes. It has no
clock; how often it is stepped is up to its user.

What can be done to a machine is given here by what it comes to: a new machine,
or a fault. The routines that do it, assignment by assignment, are in
`ChipEight.Machine.Routine`. -/

namespace ChipEight

structure Machine (σ : Type) where
  memory : Memory
  state : State
  source : σ
  deriving DecidableEq

/-- What a completed step reports. -/
structure Cycle where
  /-- The sound timer ran out in this step. -/
  beep : Bool
  deriving DecidableEq

namespace Machine

variable {σ : Type}

/-- A machine at the start of whatever program the memory holds. -/
def ofMemory (memory : Memory) (source : σ) : Machine σ where
  memory
  state := State.initial
  source

/-- Loads a program. The state is kept: a new program starts after a `reset`. -/
def load (m : Machine σ) (image : List UInt8) : Except Fault (Machine σ) :=
  (m.memory.load image).map fun memory => { m with memory }

def reset (m : Machine σ) : Machine σ := { m with state := State.initial }

/-- Stores any byte as the status of a key; only 1 counts as held down. -/
def writeKey (m : Machine σ) (key : Fin 16) (value : UInt8) : Machine σ :=
  { m with state := m.state.writeKey key value }

/-- Sets the status of the key that `key` names, if there is one. -/
def setKey (m : Machine σ) (key value : UInt8) : Except Fault (Machine σ) :=
  if h : key.toNat < 16 then .ok (m.writeKey ⟨key.toNat, h⟩ value) else .error (.noSuchKey key)

def press (m : Machine σ) (key : UInt8) : Except Fault (Machine σ) := m.setKey key 1

def release (m : Machine σ) (key : UInt8) : Except Fault (Machine σ) := m.setKey key 0

/-- Hands out the frame if it is to be drawn again, and notes that it was. -/
def takeFrame (m : Machine σ) : Option Frame × Machine σ :=
  if m.state.redraw then (some m.state.frame, { m with state := { m.state with redraw := false } })
  else (none, m)

variable [RandomSource σ]

/-- Executes an instruction. Only one that uses chance moves the source on. -/
def perform (m : Machine σ) (instruction : Instruction) : Except Fault (Machine σ) :=
  let (roll, rest) := RandomSource.next m.source
  (m.state.execute m.memory roll instruction).map fun state =>
    { m with state, source := if instruction.usesChance then rest else m.source }

/-- Executes a word without fetching it and without the timers. -/
def execute (m : Machine σ) (w : Word) : Except Fault (Machine σ) :=
  match Instruction.decode w with
  | .error fault => .error fault
  | .ok instruction => m.perform instruction

/-- Fetches the word at the program counter, executes it, and counts both
timers down. After a fault the timers stand still. -/
def step (m : Machine σ) : Except Fault (Cycle × Machine σ) :=
  match m.memory.readWord m.state.pc with
  | .error fault => .error fault
  | .ok w => (m.execute w).map fun next =>
    ({ beep := next.state.beeps }, { next with state := next.state.tick })

end Machine

end ChipEight
