import ChipEight.Machine.Routine

/-! All that a user can do to a machine, as data: a history is a list of
operations. One that fails is answered by its fault, one that crashes by the crash,
and later ones go on from the machine that it left. -/

namespace ChipEight

inductive Operation where
  | step
  | execute (word : Word)
  | load (image : List UInt8)
  | reset
  | press (key : UInt8)
  | release (key : UInt8)
  | writeKey (key : Fin 16) (value : UInt8)
  | takeFrame
  deriving DecidableEq, Repr

inductive Reply where
  | done
  | stepped (beep : Bool)
  | frame (taken : Option Frame)
  deriving DecidableEq

namespace Operation

variable {σ : Type}

variable [RandomSource σ]

open Routine in
def routine : Operation → Action (Machine σ) Reply
  | step => do return .stepped (← Routine.step).beep
  | execute word => do Routine.execute word; return .done
  | load image => do onMemory (Routine.load image); return .done
  | reset => do modify Machine.reset; return .done
  | press key => do onState (setKey key 1); return .done
  | release key => do onState (setKey key 0); return .done
  | writeKey key value => do modify fun m => m.writeKey key value; return .done
  | takeFrame => do return .frame (← onState Routine.takeFrame)

def apply (m : Machine σ) (operation : Operation) : Except Stop Reply × Machine σ :=
  operation.routine.exec m

/-- What an operation comes to. -/
def result (m : Machine σ) : Operation → Except Fault (Reply × Machine σ)
  | step => m.step.map fun (cycle, next) => (.stepped cycle.beep, next)
  | execute word => (m.execute word).map fun next => (.done, next)
  | load image => (m.load image).map fun next => (.done, next)
  | reset => .ok (.done, m.reset)
  | press key => (m.press key).map fun next => (.done, next)
  | release key => (m.release key).map fun next => (.done, next)
  | writeKey key value => .ok (.done, m.writeKey key value)
  | takeFrame => .ok (.frame m.takeFrame.1, m.takeFrame.2)

/-- The machine after a history. -/
def after (m : Machine σ) (history : List Operation) : Machine σ :=
  history.foldl (fun m operation => (apply m operation).2) m

/-- The replies to a history, in order. -/
def replies (m : Machine σ) : List Operation → List (Except Stop Reply)
  | [] => []
  | operation :: rest =>
    let (reply, next) := apply m operation
    reply :: replies next rest

/-- Every operation of a history comes to its end, without a fault and without a crash. -/
def Succeeds (m : Machine σ) (history : List Operation) : Prop :=
  ∀ answer ∈ replies m history, ∃ reply, answer = .ok reply

theorem succeeds_cons {m : Machine σ} {operation : Operation} {rest : List Operation} :
    Succeeds m (operation :: rest) ↔
      (∃ reply, (operation.apply m).1 = .ok reply) ∧ Succeeds (operation.apply m).2 rest :=
  List.forall_mem_cons

theorem after_append (m : Machine σ) (h k : List Operation) :
    after m (h ++ k) = after (after m h) k := List.foldl_append

theorem replies_append (m : Machine σ) (h k : List Operation) :
    replies m (h ++ k) = replies m h ++ replies (after m h) k := by
  induction h generalizing m with
  | nil => rfl
  | cons operation rest ih => exact congrArg (_ :: ·) (ih _)

theorem after_concat (m : Machine σ) (history : List Operation) (operation : Operation) :
    after m (history ++ [operation]) = (operation.apply (after m history)).2 :=
  after_append m history [operation]

theorem replies_concat (m : Machine σ) (history : List Operation) (operation : Operation) :
    replies m (history ++ [operation]) =
      replies m history ++ [(operation.apply (after m history)).1] :=
  replies_append m history [operation]

theorem succeeds_append {m : Machine σ} {h k : List Operation} :
    Succeeds m (h ++ k) ↔ Succeeds m h ∧ Succeeds (after m h) k := by
  rw [Succeeds, replies_append, List.forall_mem_append]
  rfl

end Operation

end ChipEight
