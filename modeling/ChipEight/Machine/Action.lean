import ChipEight.Fault

/-! Actions: work on a state as assignments one after another. An action may
stop on its way, with a fault that is reported or with a crash. Nothing is taken
back then: what was assigned before stays assigned, so a fault leaves the state
as it was only if every check comes before the first assignment. -/

namespace ChipEight

/-- Why an action did not come to its end. -/
inductive Stop where
  | fault (fault : Fault)
  /-- An index or a number left its range. -/
  | crash
  deriving DecidableEq, Repr

instance decidableEqEnding {α : Type} [DecidableEq α] : DecidableEq (Except Stop α) :=
  decideAnswers

abbrev Action (σ : Type) := ExceptT Stop (StateM σ)

namespace Action

variable {σ τ α β : Type}

/-- What an action answers, and the state that it leaves. -/
def exec (action : Action σ α) (s : σ) : Except Stop α × σ := action.run.run s

def raise (fault : Fault) : Action σ α := throw (.fault fault)

/-- Ends in a fault when the condition holds. -/
def refuse (condition : Prop) [Decidable condition] (fault : Fault) : Action σ Unit :=
  if condition then raise fault else pure ()

def ofExcept : Except Fault α → Action σ α
  | .ok value => pure value
  | .error fault => raise fault

/-- Crashes unless the condition holds. -/
def check (condition : Prop) [Decidable condition] : Action σ Unit :=
  if condition then pure () else throw .crash

/-- The value at an index, which must be in range. -/
def element {n : Nat} (values : Vector α n) (k : Nat) : Action σ α :=
  if h : k < n then pure values[k] else throw .crash

def increment (n : UInt8) : Action σ UInt8 := do
  check (n.toNat + 1 < 256)
  return n + 1

def decrement (n : UInt8) : Action σ UInt8 := do
  check (0 < n.toNat)
  return n - 1

/-- An action on a part of the state. -/
def on (part : σ → τ) (put : τ → σ → σ) (action : Action τ α) : Action σ α :=
  ExceptT.mk fun s =>
    let (result, t) := exec action (part s)
    (result, put t s)

theorem exec_pure (value : α) (s : σ) : exec (pure value) s = (.ok value, s) := rfl

theorem exec_get (s : σ) : exec get s = (.ok s, s) := rfl

theorem exec_modify (f : σ → σ) (s : σ) : exec (modify f) s = (.ok (), f s) := rfl

theorem exec_on (part : σ → τ) (put : τ → σ → σ) (action : Action τ α) (s : σ) :
    exec (on part put action) s =
      ((exec action (part s)).1, put (exec action (part s)).2 s) := rfl

theorem exec_bind (action : Action σ α) (next : α → Action σ β) (s : σ) :
    exec (action >>= next) s =
      match exec action s with
      | (.ok value, t) => exec (next value) t
      | (.error stop, t) => (.error stop, t) := by
  unfold exec
  rw [ExceptT.run_bind, StateT.run_bind]
  generalize action.run.run s = result
  obtain ⟨_ | _, _⟩ := result <;> rfl

theorem exec_refuse (condition : Prop) [Decidable condition] (fault : Fault) (s : σ) :
    exec (refuse condition fault) s =
      (if condition then .error (.fault fault) else .ok (), s) := by
  unfold refuse
  split <;> rfl

theorem exec_ofExcept_ok (value : α) (s : σ) : exec (ofExcept (.ok value)) s = (.ok value, s) := rfl

theorem exec_check {condition : Prop} [Decidable condition] (h : condition) (s : σ) :
    exec (check condition) s = (.ok (), s) := by
  rw [check, if_pos h, exec_pure]

theorem exec_element {n k : Nat} (values : Vector α n) (h : k < n) (s : σ) :
    exec (element values k) s = (.ok values[k], s) := by
  rw [element, dif_pos h, exec_pure]

theorem exec_increment {n : UInt8} (h : n.toNat + 1 < 256) (s : σ) :
    exec (increment n) s = (.ok (n + 1), s) := by
  simp only [increment, exec_bind, exec_check h, exec_pure]

theorem exec_decrement {n : UInt8} (h : 0 < n.toNat) (s : σ) :
    exec (decrement n) s = (.ok (n - 1), s) := by
  simp only [decrement, exec_bind, exec_check h, exec_pure]

end Action

end ChipEight
