import ChipEight.Machine.Operation

/-! Routines come to what the transitions of the machine say. A routine assigns
as it goes and could stop half way; a transition gives the new machine at once,
or a fault and nothing else. The two agree on every machine whose stack pointer
is in range: no routine crashes there, and none leaves anything behind when it
ends in a fault. -/

namespace ChipEight

open ChipEight.Action

/-- How an action ends that comes to `result` on `s`: a fault leaves `s` itself. -/
def Action.settle {σ α : Type} (s : σ) : Except Fault (α × σ) → Except Stop α × σ
  | .ok (value, t) => (.ok value, t)
  | .error fault => (.error (.fault fault), s)

/-- The same for an action that gives no value. -/
def Action.finish {σ : Type} (s : σ) (result : Except Fault σ) : Except Stop Unit × σ :=
  settle s (result.map fun t => ((), t))

/-- An instruction sees the byte that chance offers through its mask alone, if at all. -/
theorem State.execute_congr_roll {s : State} {memory : Memory} {a b : UInt8}
    {instruction : Instruction} (h : ∀ mask ∈ instruction.mask?, a &&& mask = b &&& mask) :
    s.execute memory a instruction = s.execute memory b instruction := by
  cases instruction with
  | random x mask => simp only [execute, h mask rfl]
  | _ => rfl

namespace Routine

variable {s : State} {x y : Nat}

theorem exec_readRegister (hx : x < 16) : exec (readRegister x) s = (.ok (s.read x), s) := by
  simp only [readRegister, exec_bind, exec_get, exec_element _ hx]
  simp [State.read, hx]

theorem exec_writeRegister (hx : x < 16) (value : UInt8) :
    exec (writeRegister x value) s = (.ok (), s.write x value) := by
  simp only [writeRegister, exec_bind, exec_check hx, exec_modify]

theorem exec_set (hx : x < 16) (value : UInt8) :
    exec (set x value) s = (.ok (), (s.write x value).advance) := by
  simp only [set, exec_bind, exec_writeRegister hx, advance, exec_modify]

theorem exec_ret (hsp : s.sp.toNat ≤ 16) : exec ret s = finish s s.pop := by
  simp only [ret, exec_bind, exec_get, exec_refuse, State.pop]
  by_cases h : s.sp = 0
  · simp only [h, if_true]
    rfl
  · have hlt : (s.sp - 1).toNat < 16 := by
      have := State.toNat_sub_one h
      have := State.toNat_pos_of_ne_zero h
      omega
    simp only [h, if_false, exec_modify]
    rw [exec_element _ hlt]
    simp [Except.map, finish, settle, State.slot, hlt]

theorem exec_call (target : UInt16) : exec (call target) s = finish s (s.push target) := by
  simp only [call, exec_bind, exec_get, exec_refuse, State.push]
  by_cases h : s.sp.toNat < 16
  · simp only [Nat.not_le.mpr h, if_false, exec_check h, exec_modify, if_pos h]
    rw [exec_increment (by omega)]
    rfl
  · simp only [Nat.not_lt.mp h, if_true, if_neg h]
    rfl

theorem exec_add (hx : x < 16) (value : UInt8) :
    exec (add x value) s = (.ok (),
      ((s.write x (s.read x + value)).write Register.flag
        (if s.read x + value < s.read x then 1 else 0)).advance) := by
  simp only [add, exec_bind, exec_readRegister hx, exec_writeRegister hx, advance, exec_modify]
  rw [exec_writeRegister (by decide)]

theorem exec_noteCollision (pixel : UInt8) :
    exec (noteCollision pixel) s =
      (.ok (), if pixel = 1 then s.write Register.flag 1 else s) := by
  unfold noteCollision
  split
  · exact exec_writeRegister (by decide) 1
  · rfl

/-- What flipping some pixels makes of a state. -/
def flipped (s : State) (ps : List Position) : State :=
  { s with
    v := if ps.any s.frame.isLit then (s.write Register.flag 1).v else s.v
    frame := ps.foldl Frame.toggle s.frame }

theorem exec_flip {p : Position} (hp : p.OnScreen) :
    exec (flip p) s = (.ok (), flipped s [p]) := by
  have hlt : p.x + 64 * p.y < 2048 := by
    obtain ⟨hx, hy⟩ := hp
    omega
  have hlit : s.frame.isLit p = (s.frame[p.x + 64 * p.y] == 1) := dif_pos hp
  have htoggle : s.frame.toggle p =
      s.frame.setIfInBounds (p.x + 64 * p.y) (s.frame[p.x + 64 * p.y] ^^^ 1) := dif_pos hp
  simp only [flip, exec_bind, exec_get]
  rw [exec_element _ hlt]
  simp only [exec_noteCollision, exec_modify, flipped, List.any_cons, List.any_nil, Bool.or_false,
    List.foldl_cons, List.foldl_nil, hlit, htoggle, beq_iff_eq]
  split <;> rfl

/-- The first position does not bear on the others, which are elsewhere. -/
theorem flipped_flipped {p : Position} {ps : List Position} (h : p ∉ ps) :
    flipped (flipped s [p]) ps = flipped s (p :: ps) := by
  have hany : ps.any (s.frame.toggle p).isLit = ps.any s.frame.isLit := by
    rw [Bool.eq_iff_iff, List.any_eq_true, List.any_eq_true]
    refine exists_congr fun q => and_congr_right fun hq => ?_
    rw [Frame.isLit_toggle_of_ne]
    rintro rfl
    exact h hq
  simp only [flipped, List.any_cons, List.any_nil, List.foldl_cons, List.foldl_nil, Bool.or_false,
    hany, State.write]
  by_cases hp : s.frame.isLit p = true <;> by_cases hps : ps.any s.frame.isLit = true <;>
    simp [hp, hps]

theorem exec_forM_flip {ps : List Position} (hon : ∀ p ∈ ps, p.OnScreen) (hnodup : ps.Nodup) :
    exec (forM ps flip) s = (.ok (), flipped s ps) := by
  induction ps generalizing s with
  | nil => rfl
  | cons p ps ih =>
    obtain ⟨hp, hps⟩ := List.forall_mem_cons.mp hon
    obtain ⟨hout, hrest⟩ := List.nodup_cons.mp hnodup
    rw [List.forM_cons, exec_bind, exec_flip hp]
    simp only [ih hps hrest, flipped_flipped hout]

theorem flipped_write_flag (ps : List Position) :
    flipped (s.write Register.flag 0) ps =
      { s.write Register.flag (if ps.any s.frame.isLit then 1 else 0) with
        frame := ps.foldl Frame.toggle s.frame } := by
  by_cases h : ps.any s.frame.isLit = true <;> simp [flipped, State.write, h]

variable {memory : Memory}

theorem exec_draw (hx : x < 16) (hy : y < 16) (roll height : UInt8) :
    exec (draw memory x y height) s = finish s (s.execute memory roll (.draw x y height)) := by
  simp only [draw, exec_bind, exec_get, State.execute]
  cases memory.readBytes s.i height.toNat with
  | error fault => rfl
  | ok rows =>
    simp only [exec_ofExcept_ok, exec_readRegister hx, exec_readRegister hy, State.draw, Frame.draw]
    generalize hlit : Sprite.positions rows (s.read x).toNat (s.read y).toNat = lit
    cases hfind : lit.find? fun p => !decide p.OnScreen with
    | some p => rfl
    | none =>
      have hon : ∀ p ∈ lit, p.OnScreen := by simpa using hfind
      have hnodup : lit.Nodup := hlit ▸ Sprite.positions_nodup _ _ _
      simp only [exec_bind, advance, exec_modify]
      rw [exec_writeRegister (by decide)]
      simp only [exec_forM_flip hon hnodup, flipped_write_flag]
      rfl

theorem exec_pressed (hx : x < 16) :
    exec (pressed x) s = settle s ((s.pressed (s.read x)).map fun held => (held, s)) := by
  simp only [pressed, exec_bind, exec_readRegister hx, exec_get, State.pressed]
  split
  · rename_i status h
    obtain ⟨hlt, rfl⟩ := Vector.getElem?_eq_some_iff.mp h
    rw [dif_pos hlt]
    rfl
  · rename_i h
    rw [dif_neg (by simpa using h)]
    rfl

theorem exec_skip_pressed (hx : x < 16) (condition : Bool → Bool) :
    exec (pressed x >>= fun held => skipIf (condition held)) s =
      finish s ((s.pressed (s.read x)).map fun held => s.skipIf (condition held)) := by
  rw [exec_bind, exec_pressed hx]
  cases s.pressed (s.read x) <;> rfl

theorem exec_addIndex (hx : x < 16) (roll : UInt8) :
    exec (addIndex x) s = finish s (s.execute memory roll (.addIndex x)) := by
  simp only [addIndex, exec_bind, exec_get, exec_readRegister hx, exec_refuse, State.execute]
  by_cases h : s.i.toNat + (s.read x).toNat < 65536
  · have hsum : UInt16.ofNat (s.i.toNat + (s.read x).toNat) = s.i + (s.read x).toUInt16 := by
      simp
    simp only [Nat.not_le.mpr h, if_false, if_pos h, hsum, exec_modify, advance]
    rfl
  · simp only [Nat.not_lt.mp h, if_true, if_neg h]
    rfl

/-- What an instruction does is what the routine leaves, and a fault of the one
is a fault of the other that leaves nothing. Only a return reads the stack where the
stack pointer has it. -/
theorem exec_instruct {instruction : Instruction} (hsp : instruction = .ret → s.sp.toNat ≤ 16)
    (hregisters : ∀ x ∈ instruction.registers, x < 16) (memory : Memory) (roll : UInt8) :
    exec (instruct memory roll instruction) s =
      finish s (s.execute memory roll instruction) := by
  cases instruction with
  | clear => rfl
  | ret => exact exec_ret (hsp rfl)
  | jump target => rfl
  | call target => exact exec_call target
  | skipEqual x value | skipUnequal x value =>
    have hx : x < 16 := hregisters x (.head _)
    simp only [instruct, exec_bind, exec_readRegister hx]
    rfl
  | set x value | random x mask =>
    exact exec_set (hregisters x (.head _)) _
  | add x value => exact exec_add (hregisters x (.head _)) value
  | copy x y =>
    have hx : x < 16 := hregisters x (.head _)
    have hy : y < 16 := hregisters y (.tail _ (.head _))
    simp only [instruct, exec_bind, exec_readRegister hy, exec_set hx]
    rfl
  | skipDifferent x y =>
    have hx : x < 16 := hregisters x (.head _)
    have hy : y < 16 := hregisters y (.tail _ (.head _))
    simp only [instruct, exec_bind, exec_readRegister hx, exec_readRegister hy]
    rfl
  | setIndex target => rfl
  | draw x y height =>
    exact exec_draw (hregisters x (.head _))
      (hregisters y (.tail _ (.head _))) roll height
  | skipPressed x =>
    exact exec_skip_pressed (hregisters x (.head _)) id
  | skipReleased x =>
    exact exec_skip_pressed (hregisters x (.head _)) not
  | readDelay x =>
    have hx : x < 16 := hregisters x (.head _)
    simp only [instruct, exec_bind, exec_get, exec_set hx]
    rfl
  | setDelay x =>
    have hx : x < 16 := hregisters x (.head _)
    simp only [instruct, exec_bind, exec_readRegister hx, exec_modify]
    rfl
  | addIndex x =>
    exact exec_addIndex (hregisters x (.head _)) roll

theorem exec_countDown (timer : UInt8) :
    exec (countDown timer) s = (.ok (State.countDown timer), s) := by
  unfold countDown State.countDown
  split
  · rfl
  · rename_i h
    exact exec_decrement (State.toNat_pos_of_ne_zero h) s

theorem exec_tick : exec tick s = (.ok { beep := s.beeps }, s.tick) := by
  simp only [tick, exec_bind, exec_get, exec_countDown, exec_modify, exec_pure]
  rfl

/-! ## The machine -/

variable {σ : Type} {m : Machine σ}

theorem exec_onState {action : Action State Unit} {result : Except Fault State}
    (h : exec action m.state = finish m.state result) :
    exec (onState action) m = finish m (result.map fun state => { m with state }) := by
  rw [onState, exec_on, h]
  cases result <;> rfl

theorem exec_load (image : List UInt8) :
    exec (onMemory (load image)) m = finish m (m.load image) := by
  simp only [onMemory, exec_on, load, exec_bind, exec_refuse, Machine.load, Memory.load]
  by_cases h : image.length ≤ Memory.capacity
  · have hfit : 0x200 + image.length ≤ 4096 := by
      unfold Memory.capacity at h
      omega
    simp only [Nat.not_lt.mpr h, if_false, if_pos h, exec_check hfit, exec_modify]
    rfl
  · simp only [Nat.not_le.mp h, if_true, if_neg h]
    rfl

theorem exec_setKey (key value : UInt8) :
    exec (onState (setKey key value)) m = finish m (m.setKey key value) := by
  simp only [onState, exec_on, setKey, Machine.setKey]
  split <;> rfl

theorem exec_takeFrame :
    exec (onState takeFrame) m = (.ok m.takeFrame.1, m.takeFrame.2) := by
  obtain ⟨memory, state, source⟩ := m
  cases state with
  | mk v i pc sp delay sound stack frame redraw keys => cases redraw <;> rfl

variable [RandomSource σ]

theorem exec_perform {instruction : Instruction}
    (hsp : instruction = .ret → m.state.sp.toNat ≤ 16)
    (hregisters : ∀ x ∈ instruction.registers, x < 16) :
    exec (perform instruction) m = finish m (m.perform instruction) := by
  simp only [perform, chance, exec_bind, Machine.perform]
  cases h : instruction.usesChance with
  | false =>
    have hmask : ∀ mask ∈ instruction.mask?,
        0 &&& mask = (RandomSource.next m.source).1 &&& mask := by
      intro mask hmem
      rw [Instruction.usesChance_eq_isSome, Option.mem_def.mp hmem] at h
      cases h
    simp only [Bool.false_eq_true, if_false, exec_pure, exec_get]
    rw [exec_onState (exec_instruct hsp hregisters m.memory 0),
      State.execute_congr_roll (b := (RandomSource.next m.source).1) hmask]
  | true =>
    cases instruction with
    | random x mask =>
      simp only [if_true, roll, exec_bind, exec_get, exec_modify, exec_pure]
      have hstate := exec_instruct hsp hregisters m.memory (RandomSource.next m.source).1
      rw [exec_onState (m := { m with source := (RandomSource.next m.source).2 }) hstate]
      rfl
    | _ => cases h

theorem exec_execute {w : Word}
    (hsp : Instruction.decode w = .ok .ret → m.state.sp.toNat ≤ 16) :
    exec (execute w) m = finish m (m.execute w) := by
  simp only [execute, exec_bind, Machine.execute]
  cases h : Instruction.decode w with
  | error fault => rfl
  | ok instruction =>
    exact exec_perform (fun hret => hsp (hret ▸ h)) fun x hx => Instruction.lt_of_mem_registers h hx

theorem exec_step (hsp : m.state.sp.toNat ≤ 16) : exec step m = settle m m.step := by
  simp only [step, exec_bind, exec_get, Machine.step]
  cases m.memory.readWord m.state.pc with
  | error fault => rfl
  | ok w =>
    simp only [exec_ofExcept_ok, exec_execute fun _ => hsp]
    cases m.execute w with
    | error fault => rfl
    | ok next =>
      simp only [finish, Except.map, settle, onState, exec_on, exec_tick]

end Routine

namespace Operation

variable {σ : Type} [RandomSource σ] {m : Machine σ}

theorem exec_routine (hsp : m.state.sp.toNat ≤ 16) (operation : Operation) :
    exec operation.routine m = settle m (operation.result m) := by
  cases operation with
  | step =>
    simp only [routine, result, exec_bind, Routine.exec_step hsp]
    cases m.step <;> rfl
  | execute word =>
    simp only [routine, result, exec_bind, Routine.exec_execute fun _ => hsp]
    cases m.execute word <;> rfl
  | load image =>
    simp only [routine, result, exec_bind, Routine.exec_load]
    cases m.load image <;> rfl
  | reset => rfl
  | press key | release key =>
    simp only [routine, result, exec_bind, Routine.exec_setKey, Machine.press, Machine.release]
    cases m.setKey key _ <;> rfl
  | writeKey key value => rfl
  | takeFrame =>
    simp only [routine, result, exec_bind, Routine.exec_takeFrame]
    rfl

theorem apply_eq (hsp : m.state.sp.toNat ≤ 16) (operation : Operation) :
    operation.apply m = match operation.result m with
      | .ok pair => (.ok pair.1, pair.2)
      | .error fault => (.error (.fault fault), m) := by
  rw [apply, exec_routine hsp]
  cases operation.result m <;> rfl

theorem apply_of_result_ok (hsp : m.state.sp.toNat ≤ 16) {operation : Operation} {reply : Reply}
    {next : Machine σ} (h : operation.result m = .ok (reply, next)) :
    operation.apply m = (.ok reply, next) := by
  rw [apply_eq hsp, h]

theorem apply_of_result_error (hsp : m.state.sp.toNat ≤ 16) {operation : Operation} {fault : Fault}
    (h : operation.result m = .error fault) : operation.apply m = (.error (.fault fault), m) := by
  rw [apply_eq hsp, h]

theorem apply_eq_error_iff (hsp : m.state.sp.toNat ≤ 16) {operation : Operation} {fault : Fault} :
    (operation.apply m).1 = .error (.fault fault) ↔ operation.result m = .error fault := by
  cases h : operation.result m with
  | ok pair =>
    rw [apply_of_result_ok hsp h]
    exact ⟨nofun, nofun⟩
  | error other =>
    rw [apply_of_result_error hsp h]
    exact ⟨fun h => by cases h; rfl, fun h => by cases h; rfl⟩

theorem apply_ne_crash (hsp : m.state.sp.toNat ≤ 16) (operation : Operation) :
    (operation.apply m).1 ≠ .error .crash := by
  rw [apply_eq hsp]
  cases operation.result m <;> exact nofun

/-- Only a return depends on the stack pointer's being in range. -/
theorem apply_execute_eq {w : Word}
    (hsp : Instruction.decode w = .ok .ret → m.state.sp.toNat ≤ 16) :
    (execute w).apply m = match m.execute w with
      | .ok next => (.ok .done, next)
      | .error fault => (.error (.fault fault), m) := by
  simp only [apply, routine, exec_bind, Routine.exec_execute hsp]
  cases m.execute w <;> rfl

theorem apply_execute_of_ok (hsp : m.state.sp.toNat ≤ 16) {word : Word} {next : Machine σ}
    (h : m.execute word = .ok next) : (execute word).apply m = (.ok .done, next) := by
  apply apply_of_result_ok hsp
  rw [result, h]
  rfl

theorem apply_step_of_ok (hsp : m.state.sp.toNat ≤ 16) {word : Word} {next : Machine σ}
    (hfetch : m.memory.readWord m.state.pc = .ok word) (h : m.execute word = .ok next) :
    step.apply m =
      (.ok (.stepped next.state.beeps), { next with state := next.state.tick }) := by
  apply apply_of_result_ok hsp
  rw [result, Machine.step, hfetch]
  dsimp only
  rw [h]
  rfl

end Operation

end ChipEight
