import ChipEight.Journal
import ChipEight.Machine.Operation

/-! The events of an operation. They follow from the machine as it is before the
operation: a word that decodes is noted even when its execution then fails. -/

namespace ChipEight

def Memory.eventsOfLoad (m : Memory) (image : List UInt8) : List Event :=
  match m.load image with
  | .ok _ => [.loaded image.length]
  | .error _ => []

namespace Machine

variable {σ : Type}

def eventsOfExecute (m : Machine σ) (w : Word) : List Event :=
  match Instruction.decode w with
  | .ok instruction =>
    [.executing { word := w, instruction, v := m.state.v, i := m.state.i, pc := m.state.pc }]
  | .error _ => []

/-- The events of a step that is fetched from `m` and comes to `result`. Why it fails
makes no difference. -/
def eventsOfStep {ε : Type} (m : Machine σ) (result : Except ε Cycle) : List Event :=
  let executing := match m.memory.readWord m.state.pc with
    | .ok w => m.eventsOfExecute w
    | .error _ => []
  match result with
  | .ok cycle => executing ++ if cycle.beep then [.beep] else []
  | .error _ => executing

end Machine

/-- The events of an operation on `m`. -/
def Operation.events {σ : Type} [RandomSource σ] (m : Machine σ) : Operation → List Event
  | step => m.eventsOfStep (Routine.step.exec m).1
  | execute word => m.eventsOfExecute word
  | load image => m.memory.eventsOfLoad image
  | reset => [.reset]
  | press _ | release _ | writeKey _ _ | takeFrame => []

end ChipEight
