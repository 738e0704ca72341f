import ChipEight.Machine
import ChipEight.Machine.Action

/-! The routines of the machine, as they run. A routine assigns in place and in
order: a return has lowered the stack pointer before it reads the address, and a
sprite is drawn pixel by pixel. Each index is checked where it is used, and each
number where it is counted up or down, so that an error there is a crash. -/

namespace ChipEight.Routine

open ChipEight.Action

/-! ## Registers and the program counter -/

def readRegister (x : Nat) : Action State UInt8 := do
  element (← get).v x

def writeRegister (x : Nat) (value : UInt8) : Action State Unit := do
  check (x < 16)
  modify fun s => s.write x value

def advance : Action State Unit := modify State.advance

def skipIf (condition : Bool) : Action State Unit := modify fun s => s.skipIf condition

/-! ## Instructions -/

def clear : Action State Unit := do
  modify fun s => { s with frame := Frame.dark }
  modify fun s => { s with redraw := true }
  advance

def ret : Action State Unit := do
  refuse ((← get).sp = 0) .stackEmpty
  modify fun s => { s with sp := s.sp - 1 }
  let s ← get
  let address ← element s.stack s.sp.toNat
  modify fun s => { s with pc := address + 2 }

def call (target : UInt16) : Action State Unit := do
  let s ← get
  refuse (16 ≤ s.sp.toNat) .stackFull
  check (s.sp.toNat < 16)
  modify fun s => { s with stack := s.stack.setIfInBounds s.sp.toNat s.pc }
  let sp ← increment s.sp
  modify fun s => { s with sp }
  modify fun s => { s with pc := target }

def set (x : Nat) (value : UInt8) : Action State Unit := do
  writeRegister x value
  advance

/-- The carry is written last, also when VF is where the sum went. -/
def add (x : Nat) (value : UInt8) : Action State Unit := do
  let before ← readRegister x
  writeRegister x (before + value)
  writeRegister Register.flag (if before + value < before then 1 else 0)
  advance

def noteCollision (pixel : UInt8) : Action State Unit :=
  if pixel = 1 then writeRegister Register.flag 1 else pure ()

/-- Inverts one pixel, and notes in VF if it was lit. -/
def flip (p : Position) : Action State Unit := do
  let pixel ← element (← get).frame (p.x + 64 * p.y)
  noteCollision pixel
  modify fun s => { s with frame := s.frame.setIfInBounds (p.x + 64 * p.y) (pixel ^^^ 1) }

def draw (memory : Memory) (x y : Nat) (height : UInt8) : Action State Unit := do
  let rows ← ofExcept (memory.readBytes (← get).i height.toNat)
  let column ← readRegister x
  let row ← readRegister y
  let lit := Sprite.positions rows column.toNat row.toNat
  match lit.find? fun p => !decide p.OnScreen with
  | some p => raise (.pixelOffScreen p.x p.y)
  | none =>
    writeRegister Register.flag 0
    forM lit flip
    modify fun s => { s with redraw := true }
    advance

/-- Whether the key that a register names is held down. -/
def pressed (x : Nat) : Action State Bool := do
  let key ← readRegister x
  match (← get).keys[key.toNat]? with
  | some status => return status == 1
  | none => raise (.noSuchKey key)

def addIndex (x : Nat) : Action State Unit := do
  let sum := (← get).i.toNat + (← readRegister x).toNat
  refuse (65536 ≤ sum) .indexOverflow
  modify fun s => { s with i := UInt16.ofNat sum }
  advance

/-- One instruction. Only the random one looks at `roll`. -/
def instruct (memory : Memory) (roll : UInt8) : Instruction → Action State Unit
  | .clear => clear
  | .ret => ret
  | .jump target => modify fun s => { s with pc := target }
  | .call target => call target
  | .skipEqual x value => do skipIf ((← readRegister x) == value)
  | .skipUnequal x value => do skipIf ((← readRegister x) != value)
  | .set x value => set x value
  | .add x value => add x value
  | .copy x y => do set x (← readRegister y)
  | .skipDifferent x y => do skipIf ((← readRegister x) != (← readRegister y))
  | .setIndex target => do
    modify fun s => { s with i := target }
    advance
  | .random x mask => set x (roll &&& mask)
  | .draw x y height => draw memory x y height
  | .skipPressed x => do skipIf (← pressed x)
  | .skipReleased x => do skipIf !(← pressed x)
  | .readDelay x => do set x (← get).delay
  | .setDelay x => do
    let value ← readRegister x
    modify fun s => { s with delay := value }
    advance
  | .addIndex x => addIndex x

/-! ## Timers, keys and the frame -/

/-- A timer is counted down while it runs. -/
def countDown (timer : UInt8) : Action State UInt8 :=
  if timer = 0 then pure 0 else decrement timer

def tick : Action State Cycle := do
  let delay ← countDown (← get).delay
  modify fun s => { s with delay }
  let before := (← get).sound
  let sound ← countDown before
  modify fun s => { s with sound }
  return { beep := before == 1 }

def setKey (key value : UInt8) : Action State Unit := do
  if key.toNat < 16 then
    modify fun s => { s with keys := s.keys.setIfInBounds key.toNat value }
  else raise (.noSuchKey key)

/-- Hands out the frame if it is to be drawn again; the note of that is cleared. -/
def takeFrame : Action State (Option Frame) := do
  let due := (← get).redraw
  modify fun s => { s with redraw := false }
  let frame := (← get).frame
  return if due then some frame else none

/-! ## The machine -/

/-- Copies a program into memory. -/
def load (image : List UInt8) : Action Memory Unit := do
  refuse (Memory.capacity < image.length) (.programTooLarge image.length Memory.capacity)
  check (0x200 + image.length ≤ 4096)
  modify fun memory => memory.store 0x200 image

variable {σ α : Type}

def onMemory (action : Action Memory α) : Action (Machine σ) α :=
  on (fun m => m.memory) (fun memory m => { m with memory }) action

def onState (action : Action State α) : Action (Machine σ) α :=
  on (fun m => m.state) (fun state m => { m with state }) action

variable [RandomSource σ]

/-- The next byte of the source, which moves on. -/
def roll : Action (Machine σ) UInt8 := do
  let (byte, rest) := RandomSource.next (← get).source
  modify fun m => { m with source := rest }
  return byte

/-- The byte that an instruction is given. Only one that uses chance takes it
from the source. -/
def chance (instruction : Instruction) : Action (Machine σ) UInt8 :=
  if instruction.usesChance then roll else pure 0

def perform (instruction : Instruction) : Action (Machine σ) Unit := do
  let byte ← chance instruction
  onState (instruct (← get).memory byte instruction)

def execute (w : Word) : Action (Machine σ) Unit := do
  perform (← ofExcept (Instruction.decode w))

def step : Action (Machine σ) Cycle := do
  let m ← get
  execute (← ofExcept (m.memory.readWord m.state.pc))
  onState tick

end ChipEight.Routine
