import ChipEight.Display.Frame
import ChipEight.Fault

/-! The volatile state of the machine: all that a reset renews. Memory is not
part of it. The stack is read and written through `push` and `pop`, which keep
`sp`, the number of return addresses in use, between 0 and 16. -/

namespace ChipEight

/-- VF, which takes carries and collisions. -/
def Register.flag : Nat := 15

structure State where
  v : Vector UInt8 16
  /-- The index register, which holds all sixteen bits. -/
  i : UInt16
  pc : UInt16
  /-- The next free slot of the stack. -/
  sp : UInt8
  delay : UInt8
  sound : UInt8
  stack : Vector UInt16 16
  frame : Frame
  /-- The frame may have changed since it was last handed out. -/
  redraw : Bool
  /-- A key is held down when its byte is 1. -/
  keys : Vector UInt8 16
  deriving DecidableEq

namespace State

/-- Everything is clear, and the program counter is where programs are loaded. -/
def initial : State where
  v := Vector.replicate 16 0
  i := 0
  pc := 0x200
  sp := 0
  delay := 0
  sound := 0
  stack := Vector.replicate 16 0
  frame := Frame.dark
  redraw := false
  keys := Vector.replicate 16 0

def read (s : State) (x : Nat) : UInt8 := s.v[x]?.getD 0

def write (s : State) (x : Nat) (value : UInt8) : State :=
  { s with v := s.v.setIfInBounds x value }

/-- On to the next instruction. -/
def advance (s : State) : State := { s with pc := s.pc + 2 }

/-- Past the next instruction when `condition` holds, otherwise on to it. -/
def skipIf (s : State) (condition : Bool) : State :=
  { s with pc := s.pc + if condition then 4 else 2 }

/-- A slot of the stack, also one that is not in use. There are sixteen. -/
def slot (s : State) (k : UInt8) : UInt16 := s.stack[k.toNat]?.getD 0

/-- Calls the routine at `target`. The address kept is that of the call itself. -/
def push (s : State) (target : UInt16) : Except Fault State :=
  if s.sp.toNat < 16 then
    .ok { s with stack := s.stack.setIfInBounds s.sp.toNat s.pc, sp := s.sp + 1, pc := target }
  else .error .stackFull

/-- Returns to the instruction behind the latest call. Its slot keeps its value. -/
def pop (s : State) : Except Fault State :=
  if s.sp = 0 then .error .stackEmpty
  else .ok { s with sp := s.sp - 1, pc := s.slot (s.sp - 1) + 2 }

def writeKey (s : State) (key : Fin 16) (value : UInt8) : State :=
  { s with keys := s.keys.setIfInBounds key.val value }

/-- Whether the key that `key` names is held down. -/
def pressed (s : State) (key : UInt8) : Except Fault Bool :=
  if h : key.toNat < 16 then .ok (s.keys[key.toNat] == 1) else .error (.noSuchKey key)

/-- A timer one step later; it stops at zero. -/
def countDown (timer : UInt8) : UInt8 := if timer = 0 then 0 else timer - 1

def tick (s : State) : State :=
  { s with delay := countDown s.delay, sound := countDown s.sound }

/-- The next tick ends the sound. -/
def beeps (s : State) : Bool := s.sound == 1

/-- What holds of every state that a machine can reach. -/
def WellFormed (s : State) : Prop := s.sp.toNat ≤ 16 ∧ s.frame.Binary

theorem read_write (s : State) (x y : Nat) (value : UInt8) (hx : x < 16) :
    (s.write x value).read y = if x = y then value else s.read y := by
  simp only [read, write, Vector.getElem?_setIfInBounds, hx, if_true]
  split <;> rfl

theorem get_keys_initial (slot : Fin 16) : initial.keys.get slot = 0 :=
  Vector.getElem_replicate slot.isLt

theorem get_keys_writeKey (s : State) (key slot : Fin 16) (value : UInt8) :
    (s.writeKey key value).keys.get slot = if key = slot then value else s.keys.get slot := by
  have h : (s.writeKey key value).keys.get slot =
      if key.val = slot.val then value else s.keys.get slot :=
    Vector.getElem_setIfInBounds slot.isLt
  simp only [h, Fin.ext_iff]

theorem toNat_pos_of_ne_zero {n : UInt8} (h : n ≠ 0) : 0 < n.toNat :=
  Nat.pos_of_ne_zero fun h0 => h (UInt8.toNat_inj.mp h0)

theorem toNat_sub_one {n : UInt8} (h : n ≠ 0) : (n - 1).toNat = n.toNat - 1 :=
  UInt8.toNat_sub_of_le n 1 (UInt8.le_iff_toNat_le.mpr (toNat_pos_of_ne_zero h))

theorem toNat_add_one {n : UInt8} (h : n.toNat < 255) : (n + 1).toNat = n.toNat + 1 := by
  rw [UInt8.toNat_add]
  exact Nat.mod_eq_of_lt (Nat.succ_lt_succ h)

theorem toNat_countDown (timer : UInt8) : (countDown timer).toNat = timer.toNat - 1 := by
  unfold countDown
  split
  · simp_all
  · rename_i h
    exact toNat_sub_one h

end State

end ChipEight
