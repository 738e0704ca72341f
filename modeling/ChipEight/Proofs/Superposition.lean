import ChipEight.Proofs.FaultTable
import ChipEight.Proofs.Moves
import Mathlib.Data.List.Basic

/-! Sprites drawn one after another. A sprite that is not placed by VF is drawn where
it would have been drawn at the beginning, whatever was drawn before it, since a draw
changes no register but VF, neither the index register nor the memory. So draws
succeed together when each succeeds alone, every pixel is inverted once for each
sprite that covers it, and the order of the draws does not matter. The laws hold of
any bytes as pixels, 0 and 1 among them. -/

namespace ChipEight

/-- The lowest bit of a number, as a pixel. -/
def parity (n : Nat) : UInt8 := UInt8.ofNat (n % 2)

theorem parity_succ (n : Nat) : parity (n + 1) = 1 ^^^ parity n := by
  unfold parity
  rcases Nat.mod_two_eq_zero_or_one n with h | h
  · rw [show (n + 1) % 2 = 1 by omega, h]
    rfl
  · rw [show (n + 1) % 2 = 0 by omega, h]
    rfl

theorem parity_add_self (n : Nat) : parity (n + n) = 0 := by
  unfold parity
  rw [show (n + n) % 2 = 0 by omega]
  rfl

/-- A pixel is inverted as often as its position is listed. -/
theorem Frame.pixel_foldl_toggle (ps : List Position) (f : Frame) (x : Fin 64) (y : Fin 32) :
    (ps.foldl toggle f).pixel x y = f.pixel x y ^^^ parity (ps.count ⟨x, y⟩) := by
  induction ps generalizing f with
  | nil => exact (UInt8.xor_zero).symm
  | cons p ps ih =>
    rw [List.foldl_cons, ih, pixel_toggle, List.count_cons]
    by_cases h : p = ⟨x, y⟩
    · rw [if_pos h, if_pos (beq_iff_eq.mpr h), parity_succ, UInt8.xor_assoc]
    · rw [if_neg h, if_neg (by simpa using h), Nat.add_zero]

theorem Sprite.count_positions (rows : List UInt8) (x y : Nat) (p : Position) :
    (positions rows x y).count p = if p ∈ positions rows x y then 1 else 0 := by
  split
  · have hle := List.nodup_iff_count.mp (positions_nodup rows x y) p
    have hpos := List.count_pos_iff.mpr ‹p ∈ positions rows x y›
    omega
  · exact List.count_eq_zero.mpr ‹_›

namespace State

variable {memory : Memory} {s t : State} {w : Word}

/-- The sprite that `w` draws has a set bit at a position, on the screen or off it. -/
def Covers (memory : Memory) (s : State) (w : Word) (p : Position) : Prop :=
  (s.read w.y).toNat ≤ p.y ∧ p.y < (s.read w.y).toNat + w.height.toNat ∧
    (s.read w.x).toNat ≤ p.x ∧ p.x < (s.read w.x).toNat + 8 ∧
    ((memory[s.i.toNat + (p.y - (s.read w.y).toNat)]?).getD 0).toNat.testBit
      (7 - (p.x - (s.read w.x).toNat)) = true

instance (p : Position) : Decidable (Covers memory s w p) := inferInstanceAs (Decidable (_ ∧ _))

/-- The positions that the sprite drawn by `w` lights, if its rows are in memory. -/
def lit (memory : Memory) (s : State) (w : Word) : List Position :=
  match memory.readBytes s.i w.height.toNat with
  | .ok rows => Sprite.positions rows (s.read w.x).toNat (s.read w.y).toNat
  | .error _ => []

/-- The rows of the sprite are in memory, and all that it lights is on the screen. -/
def Drawable (memory : Memory) (s : State) (w : Word) : Prop :=
  (∃ rows, memory.readBytes s.i w.height.toNat = .ok rows) ∧ ∀ p ∈ lit memory s w, p.OnScreen

theorem mem_lit_iff (h : Drawable memory s w) {p : Position} :
    p ∈ lit memory s w ↔ Covers memory s w p := by
  obtain ⟨⟨rows, hrows⟩, -⟩ := h
  have hget := Memory.getElem?_of_readBytes hrows (p.y - (s.read w.y).toNat)
  simp only [lit, hrows, Sprite.mem_positions, Covers]
  constructor
  · rintro ⟨hy, hlo, hhi, row, hrow, hset⟩
    rw [hrow] at hget
    split at hget
    · rw [← hget]
      exact ⟨hy, by omega, hlo, hhi, hset⟩
    · cases hget
  · rintro ⟨hy, hylt, hlo, hhi, hset⟩
    rw [if_pos (by omega)] at hget
    cases hbyte : memory[s.i.toNat + (p.y - (s.read w.y).toNat)]? with
    | none =>
      rw [hbyte] at hset
      simp at hset
    | some byte =>
      rw [hbyte] at hget hset
      exact ⟨hy, hlo, hhi, byte, hget, hset⟩

theorem count_lit (h : Drawable memory s w) (p : Position) :
    (lit memory s w).count p = if Covers memory s w p then 1 else 0 := by
  have hcount : (lit memory s w).count p = if p ∈ lit memory s w then 1 else 0 := by
    obtain ⟨⟨rows, hrows⟩, -⟩ := h
    simp only [lit, hrows]
    exact Sprite.count_positions _ _ _ p
  simp only [hcount, mem_lit_iff h]

/-- What is taken for lit of the positions of a sprite, in any frame. -/
theorem any_lit_iff (h : Drawable memory s w) (f : Frame) :
    (lit memory s w).any f.isLit = true ↔
      ∃ (x : Fin 64) (y : Fin 32), Covers memory s w ⟨x, y⟩ ∧ f.pixel x y = 1 := by
  rw [List.any_eq_true]
  constructor
  · rintro ⟨p, hmem, hlit⟩
    obtain ⟨hx, hy⟩ := h.2 p hmem
    have hpixel := f.isLit_eq_pixel ⟨p.x, hx⟩ ⟨p.y, hy⟩
    exact ⟨⟨p.x, hx⟩, ⟨p.y, hy⟩, (mem_lit_iff h).mp hmem, beq_iff_eq.mp (hpixel.symm.trans hlit)⟩
  · rintro ⟨x, y, hcovers, hpixel⟩
    refine ⟨⟨x, y⟩, (mem_lit_iff h).mpr hcovers, ?_⟩
    rw [Frame.isLit_eq_pixel, hpixel]
    rfl

/-- The pixels behind a draw: those that the sprite covers are inverted. -/
theorem pixel_drawn (h : Drawable memory s w) (x : Fin 64) (y : Fin 32) :
    (s.drawn (lit memory s w)).frame.pixel x y =
      s.frame.pixel x y ^^^ if Covers memory s w ⟨x, y⟩ then 1 else 0 := by
  refine (Frame.pixel_foldl_toggle (lit memory s w) s.frame x y).trans ?_
  rw [count_lit h]
  split <;> rfl

theorem count_flatMap_lit {words : List Word} (h : ∀ w ∈ words, Drawable memory s w)
    (p : Position) :
    (words.flatMap (lit memory s)).count p = words.countP fun w => Covers memory s w p := by
  induction words with
  | nil => rfl
  | cons w rest ih =>
    obtain ⟨hw, hrest⟩ := List.forall_mem_cons.mp h
    rw [List.flatMap_cons, List.count_append, List.countP_cons, ih hrest, count_lit hw,
      Nat.add_comm]
    simp only [decide_eq_true_eq]

/-- What a sprite is taken from and where it is put are the same. -/
structure SamePlaces (s t : State) : Prop where
  i_eq : t.i = s.i
  read_eq : ∀ x, x ≠ Register.flag → t.read x = s.read x

theorem samePlaces_drawn (s : State) (ps : List Position) : s.SamePlaces (s.drawn ps) := by
  refine ⟨rfl, fun x hx => ?_⟩
  exact (s.read_write Register.flag x _ (by decide)).trans (if_neg (Ne.symm hx))

/-- The sprite of a word is drawn, and VF is none of the registers that place it. -/
structure Draws (w : Word) : Prop where
  fits : w.Fits .draw
  x_ne : w.x ≠ Register.flag
  y_ne : w.y ≠ Register.flag

theorem SamePlaces.lit_eq (h : s.SamePlaces t) (hw : Draws w) :
    lit memory t w = lit memory s w := by
  simp only [lit, h.i_eq, h.read_eq _ hw.x_ne, h.read_eq _ hw.y_ne]

theorem SamePlaces.drawable_iff (h : s.SamePlaces t) (hw : Draws w) :
    Drawable memory t w ↔ Drawable memory s w := by
  simp only [Drawable, h.lit_eq hw, h.i_eq]

/-- VF after a draw says whether a lit pixel was inverted. -/
theorem read_flag_drawn (s : State) (ps : List Position) :
    (s.drawn ps).read Register.flag = if ps.any s.frame.isLit then 1 else 0 :=
  (s.read_write Register.flag Register.flag _ (by decide)).trans (if_pos rfl)

end State

namespace Operation

variable {σ : Type} [RandomSource σ] {m : Machine σ} {w : Word} {words : List Word}

/-- The stack pointer has no part in a draw and may have any value. -/
theorem apply_execute_of_draw (hw : w.Fits .draw) :
    (execute w).apply m = match m.execute w with
      | .ok next => (.ok .done, next)
      | .error fault => (.error (.fault fault), m) := by
  have hne : Instruction.decode w = .ok .ret → m.state.sp.toNat ≤ 16 := by
    rw [Instruction.decode_of_fits hw]
    exact nofun
  exact apply_execute_eq hne

/-- The machine behind the draw of `w`. -/
def drew (m : Machine σ) (w : Word) : Machine σ :=
  { m with state := m.state.drawn (m.state.lit m.memory w) }

theorem apply_draw (hw : w.Fits .draw) (h : m.state.Drawable m.memory w) :
    (execute w).apply m = (.ok .done, drew m w) := by
  obtain ⟨⟨rows, hrows⟩, hon⟩ := h
  simp only [State.lit, hrows] at hon
  have hstate : m.state.execute m.memory (RandomSource.next m.source).1 (.draw w.x w.y w.height) =
      .ok (m.state.drawn (Sprite.positions rows (m.state.read w.x).toNat
        (m.state.read w.y).toNat)) := State.draw_eq_ok_iff.mpr ⟨rows, hrows, hon, rfl⟩
  rw [apply_execute_of_draw hw]
  simp only [Machine.execute, Instruction.decode_of_fits hw, Pattern.instruction, Machine.perform,
    hstate, drew, State.lit, hrows]
  rfl

theorem after_draw_cons (hw : w.Fits .draw) (h : m.state.Drawable m.memory w)
    (rest : List Operation) : after m (execute w :: rest) = after (drew m w) rest := by
  rw [after, List.foldl_cons, apply_draw hw h]
  rfl

theorem drawable_iff (hw : w.Fits .draw) :
    (∃ reply, ((execute w).apply m).1 = .ok reply) ↔ m.state.Drawable m.memory w := by
  refine ⟨fun h => ?_, fun h => ⟨.done, by rw [apply_draw hw h]⟩⟩
  rw [apply_execute_of_draw hw] at h
  cases hexecute : m.execute w with
  | error fault =>
    rw [hexecute] at h
    obtain ⟨reply, hreply⟩ := h
    cases hreply
  | ok next =>
    obtain ⟨instruction, state, hdecode, hstate, -⟩ := Machine.execute_eq_ok hexecute
    rw [Instruction.decode_of_fits hw] at hdecode
    cases hdecode
    obtain ⟨rows, hrows, hon, -⟩ := State.draw_eq_ok_iff.mp hstate
    refine ⟨⟨rows, hrows⟩, ?_⟩
    simpa only [State.lit, hrows] using hon

/-- Draws succeed together when each can be drawn at the beginning. -/
theorem succeeds_draws_iff (hwords : ∀ w ∈ words, State.Draws w) :
    Succeeds m (words.map execute) ↔ ∀ w ∈ words, m.state.Drawable m.memory w := by
  induction words generalizing m with
  | nil => exact ⟨nofun, nofun⟩
  | cons w rest ih =>
    obtain ⟨hw, hrest⟩ := List.forall_mem_cons.mp hwords
    rw [List.map_cons, succeeds_cons, drawable_iff hw.fits, List.forall_mem_cons]
    refine and_congr_right fun h => ?_
    rw [apply_draw hw.fits h, ih hrest]
    -- The first sprite has moved none of the others.
    have hplaces := m.state.samePlaces_drawn (m.state.lit m.memory w)
    exact forall₂_congr fun v hv => hplaces.drawable_iff (hrest v hv)

/-- All pixels that are lit by the sprites are inverted, one sprite after another. -/
theorem frame_after_draws (hwords : ∀ w ∈ words, State.Draws w)
    (h : ∀ w ∈ words, m.state.Drawable m.memory w) :
    (after m (words.map execute)).state.frame =
      (words.flatMap (m.state.lit m.memory)).foldl Frame.toggle m.state.frame := by
  induction words generalizing m with
  | nil => rfl
  | cons w rest ih =>
    obtain ⟨hw, hrest⟩ := List.forall_mem_cons.mp hwords
    obtain ⟨hdrawable, hothers⟩ := List.forall_mem_cons.mp h
    have hplaces := m.state.samePlaces_drawn (m.state.lit m.memory w)
    have hdrawables : ∀ v ∈ rest, (drew m w).state.Drawable m.memory v :=
      fun v hv => (hplaces.drawable_iff (hrest v hv)).mpr (hothers v hv)
    have hlits : rest.flatMap ((drew m w).state.lit m.memory) =
        rest.flatMap (m.state.lit m.memory) :=
      List.flatMap_congr fun v hv => hplaces.lit_eq (hrest v hv)
    rw [List.map_cons, after_draw_cons hw.fits hdrawable, List.flatMap_cons, List.foldl_append,
      ← hlits]
    exact ih hrest hdrawables

theorem pixel_after_draws (hwords : ∀ w ∈ words, State.Draws w)
    (h : ∀ w ∈ words, m.state.Drawable m.memory w) (x : Fin 64) (y : Fin 32) :
    (after m (words.map execute)).state.frame.pixel x y =
      m.state.frame.pixel x y ^^^
        parity (words.countP fun w => m.state.Covers m.memory w ⟨x, y⟩) := by
  rw [frame_after_draws hwords h, Frame.pixel_foldl_toggle, State.count_flatMap_lit h]

theorem frame_after_draws_perm {other : List Word} (hperm : other.Perm words)
    (hwords : ∀ w ∈ words, State.Draws w) (h : ∀ w ∈ words, m.state.Drawable m.memory w) :
    (after m (other.map execute)).state.frame = (after m (words.map execute)).state.frame := by
  have hother : ∀ w ∈ other, State.Draws w := fun w hw => hwords w (hperm.mem_iff.mp hw)
  have hdrawable : ∀ w ∈ other, m.state.Drawable m.memory w :=
    fun w hw => h w (hperm.mem_iff.mp hw)
  refine Frame.ext_pixel fun x y => ?_
  rw [pixel_after_draws hother hdrawable, pixel_after_draws hwords h, hperm.countP_eq]

theorem frame_after_draws_twice (hwords : ∀ w ∈ words ++ words, State.Draws w)
    (h : ∀ w ∈ words ++ words, m.state.Drawable m.memory w) :
    (after m ((words ++ words).map execute)).state.frame = m.state.frame := by
  refine Frame.ext_pixel fun x y => ?_
  rw [pixel_after_draws hwords h, List.countP_append, parity_add_self, UInt8.xor_zero]

theorem flag_after_draw_twice (hw : State.Draws w) (h : m.state.Drawable m.memory w) :
    (after m [execute w, execute w]).state.read Register.flag = 1 ↔
      ∃ (x : Fin 64) (y : Fin 32),
        m.state.Covers m.memory w ⟨x, y⟩ ∧ m.state.frame.pixel x y = 0 := by
  have hplaces := m.state.samePlaces_drawn (m.state.lit m.memory w)
  have hagain : (drew m w).state.Drawable m.memory w := (hplaces.drawable_iff hw).mpr h
  have hstate : (after m [execute w, execute w]).state =
      (m.state.drawn (m.state.lit m.memory w)).drawn (m.state.lit m.memory w) := by
    rw [after_draw_cons hw.fits h, after_draw_cons (m := drew m w) hw.fits hagain]
    exact congrArg (drew m w).state.drawn (hplaces.lit_eq hw)
  have hflag : ∀ b : Bool, (if b = true then 1 else 0 : UInt8) = 1 ↔ b = true := by decide
  rw [hstate, State.read_flag_drawn, hflag, State.any_lit_iff h]
  refine exists₂_congr fun x y => and_congr_right fun hcovers => ?_
  -- The byte need not be 0 or 1: it is only the inverse of 0 that is lit.
  have hinj := UInt8.xor_left_inj (a := m.state.frame.pixel x y) (b := 0) 1
  rw [UInt8.zero_xor] at hinj
  rw [State.pixel_drawn h, if_pos hcovers]
  exact hinj

/-- Sprites that VF does not place are drawn together if each is drawn alone, and then
a pixel is inverted once for each sprite that covers it: they may be drawn in any order,
drawing them all again takes them away, and a sprite drawn twice ends with VF set exactly
if it covered a dark pixel. -/
theorem draws_superpose (hwords : ∀ w ∈ words, State.Draws w) :
    (Succeeds m (words.map execute) ↔ ∀ w ∈ words, Succeeds m [execute w]) ∧
      (Succeeds m (words.map execute) →
        (∀ x y, (after m (words.map execute)).state.frame.pixel x y =
          m.state.frame.pixel x y ^^^
            parity (words.countP fun w => m.state.Covers m.memory w ⟨x, y⟩)) ∧
        (∀ other : List Word, other.Perm words → Succeeds m (other.map execute) ∧
          (after m (other.map execute)).state.frame =
            (after m (words.map execute)).state.frame) ∧
        Succeeds m ((words ++ words).map execute) ∧
        (after m ((words ++ words).map execute)).state.frame = m.state.frame) ∧
      ∀ w ∈ words, Succeeds m [execute w] →
        ((after m [execute w, execute w]).state.read Register.flag = 1 ↔
          ∃ x y, m.state.Covers m.memory w ⟨x.val, y.val⟩ ∧ m.state.frame.pixel x y = 0) := by
  have hone : ∀ w ∈ words, (Succeeds m [execute w] ↔ m.state.Drawable m.memory w) := by
    intro w hw
    have hdraws : ∀ v ∈ [w], State.Draws v := List.forall_mem_singleton.mpr (hwords w hw)
    exact (succeeds_draws_iff hdraws).trans List.forall_mem_singleton
  refine ⟨?_, fun hall => ?_, fun w hw h => ?_⟩
  · exact (succeeds_draws_iff hwords).trans (forall₂_congr fun w hw => (hone w hw).symm)
  · have hdrawable := (succeeds_draws_iff hwords).mp hall
    have htwice : ∀ w ∈ words ++ words, w ∈ words := fun w hw =>
      (List.mem_append.mp hw).elim id id
    have hdraws : ∀ w ∈ words ++ words, State.Draws w := fun w hw => hwords w (htwice w hw)
    have hboth : ∀ w ∈ words ++ words, m.state.Drawable m.memory w :=
      fun w hw => hdrawable w (htwice w hw)
    refine ⟨pixel_after_draws hwords hdrawable, fun other hperm => ⟨?_, ?_⟩, ?_, ?_⟩
    · refine (succeeds_draws_iff fun w hw => hwords w (hperm.mem_iff.mp hw)).mpr fun w hw => ?_
      exact hdrawable w (hperm.mem_iff.mp hw)
    · exact frame_after_draws_perm hperm hwords hdrawable
    · exact (succeeds_draws_iff hdraws).mpr hboth
    · exact frame_after_draws_twice hdraws hboth
  · exact flag_after_draw_twice (hwords w hw) ((hone w hw).mp h)

/-- Two pixels side by side, and the same sprite one column to the right. -/
theorem draws_superpose_overlapping :
    let m : Machine Progression :=
      { memory := Memory.zero.store 0x200 [0xC0]
        state := { State.initial with v := State.initial.v.setIfInBounds 1 1, i := 0x200 }
        source := { value := 0, increment := 0 } }
    let words : List Word := [0xD001, 0xD101]
    (∀ w ∈ words, State.Draws w) ∧ Succeeds m (words.map execute) ∧
      (after m (words.map execute)).state.frame.pixel 1 0 = 0 ∧
      (after m ((words ++ words).map execute)).state.frame = m.state.frame ∧
      (after m [execute 0xD001, execute 0xD001]).state.read Register.flag = 1 := by
  intro m words
  have hdraws : ∀ w ∈ words, State.Draws w := by
    refine List.forall_mem_cons.mpr ⟨?_, List.forall_mem_singleton.mpr ?_⟩ <;>
      exact ⟨⟨rfl, trivial, trivial, trivial⟩, by decide, by decide⟩
  have hreplies : replies m (words.map execute) = [.ok .done, .ok .done] := by decide +kernel
  have hsucceeds : Succeeds m (words.map execute) := by simp [Succeeds, hreplies]
  have hdark : m.state.frame = Frame.dark := rfl
  have htwice : words.countP (fun w => m.state.Covers m.memory w ⟨1, 0⟩) = 2 := by decide +kernel
  have hcovers : m.state.Covers m.memory 0xD001 ⟨0, 0⟩ := by decide +kernel
  obtain ⟨heach, hall, hflag⟩ := draws_superpose (m := m) hdraws
  obtain ⟨hpixel, -, -, hframe⟩ := hall hsucceeds
  have hmem : (0xD001 : Word) ∈ words := List.mem_cons_self
  refine ⟨hdraws, hsucceeds, ?_, hframe, ?_⟩
  · refine (hpixel 1 0).trans ?_
    rw [hdark]
    exact congrArg (fun n => 0 ^^^ parity n) htwice
  · refine (hflag 0xD001 hmem (heach.mp hsucceeds 0xD001 hmem)).mpr ⟨0, 0, hcovers, ?_⟩
    rw [hdark]
    rfl

end Operation

end ChipEight
