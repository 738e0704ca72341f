import ChipEight.Display.Sprite
import ChipEight.Instruction
import ChipEight.Machine.State
import ChipEight.Memory

/-! What each instruction does to the state. A fault leaves no new state: every
check of an instruction comes before its first effect can be seen. -/

namespace ChipEight.State

/-- Draws the rows of a sprite at (Vx, Vy) and sets VF on a collision. -/
def draw (s : State) (x y : Nat) (rows : List UInt8) : Except Fault State :=
  (s.frame.draw rows (s.read x).toNat (s.read y).toNat).map fun drawing =>
    let s := s.write Register.flag (if drawing.collision then 1 else 0)
    { s with frame := drawing.frame, redraw := true }.advance

/-- Executes one instruction. `roll` is the byte that chance offers: only the
random instruction looks at it. When VF is the destination of an addition, it
ends up with the carry and not with the sum. -/
def execute (memory : Memory) (roll : UInt8) (s : State) : Instruction → Except Fault State
  | .clear => .ok { s with frame := Frame.dark, redraw := true }.advance
  | .ret => s.pop
  | .jump target => .ok { s with pc := target }
  | .call target => s.push target
  | .skipEqual x value => .ok (s.skipIf (s.read x == value))
  | .skipUnequal x value => .ok (s.skipIf (s.read x != value))
  | .set x value => .ok (s.write x value).advance
  | .add x value =>
    let sum := s.read x + value
    .ok ((s.write x sum).write Register.flag (if sum < s.read x then 1 else 0)).advance
  | .copy x y => .ok (s.write x (s.read y)).advance
  | .skipDifferent x y => .ok (s.skipIf (s.read x != s.read y))
  | .setIndex target => .ok { s with i := target }.advance
  | .random x mask => .ok (s.write x (roll &&& mask)).advance
  | .draw x y height =>
    match memory.readBytes s.i height.toNat with
    | .error fault => .error fault
    | .ok rows => s.draw x y rows
  | .skipPressed x => (s.pressed (s.read x)).map s.skipIf
  | .skipReleased x => (s.pressed (s.read x)).map fun held => s.skipIf !held
  | .readDelay x => .ok (s.write x s.delay).advance
  | .setDelay x => .ok { s with delay := s.read x }.advance
  | .addIndex x =>
    if s.i.toNat + (s.read x).toNat < 65536 then
      .ok { s with i := s.i + (s.read x).toUInt16 }.advance
    else .error .indexOverflow

end ChipEight.State
