import ChipEight.Proofs.DecodeTable
import ChipEight.Proofs.Drive
import ChipEight.Proofs.Overlay

/-! Memory that is not read has no influence. A step reads the two bytes of the word at the
program counter and, if that word is a draw, the rows of its sprite; where a read fails, it
fails by its address alone. So two machines that differ in their memories go through the
same states as long as the memories agree on what one of them reads. -/

namespace ChipEight

namespace Memory

variable {m other : Memory} {address : UInt16}

theorem readWord_congr (hhi : m[address.toNat]? = other[address.toNat]?)
    (hlo : m[address.toNat + 1]? = other[address.toNat + 1]?) :
    m.readWord address = other.readWord address := by
  rw [readWord_eq, readWord_eq]
  split
  · have hlt : address.toNat < 4096 := by omega
    simp_all
  · rfl

theorem readBytes_congr {count : Nat}
    (h : ∀ k < count, m[address.toNat + k]? = other[address.toNat + k]?) :
    m.readBytes address count = other.readBytes address count := by
  unfold readBytes
  split
  · rfl
  · split
    · congr 2
      funext k
      have := h k.val k.isLt
      have hlt : address.toNat + k.val < 4096 := by omega
      simpa [hlt] using this
    · rfl

end Memory

theorem Instruction.fits_of_decode_draw {w : Word} {x y : Nat} {height : UInt8}
    (h : decode w = .ok (.draw x y height)) : w.Fits .draw ∧ height = w.height := by
  obtain ⟨p, hp, hdraw⟩ := exists_fits_of_decode h
  cases p <;> cases hdraw
  exact ⟨hp, rfl⟩

/-- Only a draw looks at the memory. -/
theorem State.execute_congr_memory {s : State} {memory other : Memory} {roll : UInt8}
    {instruction : Instruction}
    (h : ∀ x y height, instruction = .draw x y height →
      memory.readBytes s.i height.toNat = other.readBytes s.i height.toNat) :
    s.execute other roll instruction = s.execute memory roll instruction := by
  cases instruction with
  | draw x y height => simp only [execute, h x y height rfl]
  | _ => rfl

namespace Machine

variable {σ : Type} [RandomSource σ] {m : Machine σ} {other : Memory}

/-- The addresses that a step of `m` reads, of those that memory has. -/
def Reads (m : Machine σ) (a : Nat) : Prop :=
  a < 4096 ∧ (a = m.state.pc.toNat ∨ a = m.state.pc.toNat + 1 ∨
    ∃ w, m.memory.readWord m.state.pc = .ok w ∧ w.Fits .draw ∧
      m.state.i.toNat ≤ a ∧ a < m.state.i.toNat + w.height.toNat)

theorem execute_withMemory {w : Word}
    (hrows : w.Fits .draw → ∀ k < w.height.toNat,
      m.memory[m.state.i.toNat + k]? = other[m.state.i.toNat + k]?) :
    ({ m with memory := other } : Machine σ).execute w =
      (m.execute w).map fun next => { next with memory := other } := by
  simp only [execute]
  cases hdecode : Instruction.decode w with
  | error fault => rfl
  | ok instruction =>
    have hstate : m.state.execute other (RandomSource.next m.source).1 instruction =
        m.state.execute m.memory (RandomSource.next m.source).1 instruction := by
      refine State.execute_congr_memory fun x y height heq => ?_
      obtain ⟨hw, rfl⟩ := Instruction.fits_of_decode_draw (heq ▸ hdecode)
      exact Memory.readBytes_congr (hrows hw)
    simp only [perform, hstate]
    cases m.state.execute m.memory (RandomSource.next m.source).1 instruction <;> rfl

theorem step_withMemory (h : ∀ a, m.Reads a → m.memory[a]? = other[a]?) :
    ({ m with memory := other } : Machine σ).step =
      m.step.map fun pair => (pair.1, { pair.2 with memory := other }) := by
  -- Beyond the end of memory there is nothing to agree on.
  have hagree : ∀ a, (a = m.state.pc.toNat ∨ a = m.state.pc.toNat + 1 ∨
      ∃ w, m.memory.readWord m.state.pc = .ok w ∧ w.Fits .draw ∧
        m.state.i.toNat ≤ a ∧ a < m.state.i.toNat + w.height.toNat) →
      m.memory[a]? = other[a]? := by
    intro a ha
    by_cases hlt : a < 4096
    · exact h a ⟨hlt, ha⟩
    · simp [hlt]
  have hfetch : m.memory.readWord m.state.pc = other.readWord m.state.pc :=
    Memory.readWord_congr (hagree _ (.inl rfl)) (hagree _ (.inr (.inl rfl)))
  simp only [step, ← hfetch]
  cases hw : m.memory.readWord m.state.pc with
  | error fault => rfl
  | ok w =>
    have hrows : w.Fits .draw → ∀ k < w.height.toNat,
        m.memory[m.state.i.toNat + k]? = other[m.state.i.toNat + k]? := fun hdraw k hk =>
      hagree _ (.inr (.inr ⟨w, hw, hdraw, Nat.le_add_right _ _, Nat.add_lt_add_left hk _⟩))
    simp only [execute_withMemory hrows]
    cases m.execute w <;> rfl

end Machine

namespace Operation

variable {σ : Type} [RandomSource σ] {m : Machine σ} {other : Memory} {n : Nat}

theorem memory_after_steps (hsp : m.state.sp.toNat ≤ 16) (n : Nat) :
    (after m (steps n)).memory = m.memory := by
  refine memory_after_of_not_load hsp fun image hmem => ?_
  cases List.eq_of_mem_replicate hmem

/-- The first `n` steps of two machines have the same replies, and both go through the same
states and sources. -/
def StepAlike (m m' : Machine σ) (n : Nat) : Prop :=
  replies m' (steps n) = replies m (steps n) ∧
    ∀ k ≤ n, (after m' (steps k)).state = (after m (steps k)).state ∧
      (after m' (steps k)).source = (after m (steps k)).source

/-- The memory has the same bytes as another one wherever one of the first `n` steps reads. -/
def AgreesOnReads (m : Machine σ) (n : Nat) (other : Memory) : Prop :=
  ∀ k < n, ∀ a, (after m (steps k)).Reads a → m.memory[a]? = other[a]?

theorem unnoticed_of_agreesOnReads (hsp : m.state.sp.toNat ≤ 16) (h : AgreesOnReads m n other) :
    Unnoticed (fun m => { m with memory := other }) m n := by
  refine unnoticed_of_step hsp (fun _ => rfl) fun k hk => Machine.step_withMemory ?_
  rw [memory_after_steps hsp k]
  exact h k hk

theorem stepAlike_of_agreesOnReads (hsp : m.state.sp.toNat ≤ 16) (h : AgreesOnReads m n other) :
    StepAlike m { m with memory := other } n := by
  have hunnoticed := unnoticed_of_agreesOnReads hsp h
  refine ⟨hunnoticed.replies_steps, fun k hk => ?_⟩
  rw [hunnoticed.after_steps hk]
  exact ⟨rfl, rfl⟩

theorem agreesOnReads_of_tail_unread {earlier left : Memory} {old image : List UInt8}
    (hold : earlier.load old = .ok left) (hover : left.load image = .ok m.memory)
    (halone : earlier.load image = .ok other)
    (hreads : ∀ k < n, ∀ a, (after m (steps k)).Reads a →
      a < 0x200 + image.length ∨ 0x200 + old.length ≤ a) : AgreesOnReads m n other := by
  obtain ⟨-, rfl⟩ := Memory.load_eq_ok_iff.mp hold
  obtain ⟨-, hmemory⟩ := Memory.load_eq_ok_iff.mp hover
  obtain ⟨-, rfl⟩ := Memory.load_eq_ok_iff.mp halone
  intro k hk a ha
  have hlt : a < 4096 := ha.1
  have hbyte := Memory.getElem_store_store earlier old image a hlt (hreads k hk a ha)
  rw [hmemory, Vector.getElem?_eq_getElem hlt, Vector.getElem?_eq_getElem hlt, hbyte]

/-- As long as two memories agree on what the steps over one of them read, the steps over
the other are the same; so what an earlier and longer program has left behind does nothing to
one that neither executes nor draws it. -/
theorem steps_depend_on_reads (hsp : m.state.sp.toNat ≤ 16) (n : Nat) (other : Memory) :
    (AgreesOnReads m n other → StepAlike m { m with memory := other } n) ∧
      ∀ (earlier left : Memory) (old image : List UInt8), earlier.load old = .ok left →
        left.load image = .ok m.memory → earlier.load image = .ok other →
        (∀ k < n, ∀ a, (after m (steps k)).Reads a →
          a < 0x200 + image.length ∨ 0x200 + old.length ≤ a) →
        StepAlike m { m with memory := other } n := by
  refine ⟨stepAlike_of_agreesOnReads hsp, fun earlier left old image hold hover halone hreads => ?_⟩
  exact stepAlike_of_agreesOnReads hsp (agreesOnReads_of_tail_unread hold hover halone hreads)

/-- A sprite of one row is drawn, and the two bytes that a longer program has left behind
the sprite are not. -/
theorem steps_depend_on_reads_old_tail :
    let old : List UInt8 := [0x60, 0x01, 0x61, 0x02, 0x62, 0x03, 0x63]
    let image : List UInt8 := [0xA2, 0x04, 0xD0, 0x01, 0x80]
    let m := Machine.ofMemory ((Memory.zero.store 0x200 old).store 0x200 image) (Progression.mk 0 0)
    let other := Memory.zero.store 0x200 image
    m.state.sp.toNat ≤ 16 ∧ m.memory.readByte 0x205 = .ok 3 ∧ other.readByte 0x205 = .ok 0 ∧
      (∀ k < 2, ∀ a, (after m (steps k)).Reads a →
        a < 0x200 + image.length ∨ 0x200 + old.length ≤ a) ∧
      StepAlike m { m with memory := other } 2 := by
  intro old image m other
  have hsp : m.state.sp.toNat ≤ 16 := by decide
  have hleft : m.memory.readByte 0x205 = .ok 3 := by decide +kernel
  have hzero : other.readByte 0x205 = .ok 0 := by decide +kernel
  have hfetch : ∀ k < 2, (after m (steps k)).state.pc.toNat ≤ 0x202 ∧
      ((after m (steps k)).memory.readWord (after m (steps k)).state.pc = .ok 0xA204 ∨
        (after m (steps k)).memory.readWord (after m (steps k)).state.pc = .ok 0xD001 ∧
        (after m (steps k)).state.i = 0x204) := by
    decide +kernel
  have hreads : ∀ k < 2, ∀ a, (after m (steps k)).Reads a →
      a < 0x200 + image.length ∨ 0x200 + old.length ≤ a := by
    intro k hk a ha
    left
    show a < 0x205
    obtain ⟨hpc, hword⟩ := hfetch k hk
    obtain ⟨-, rfl | rfl | ⟨w, hw, hdraw, -, hrow⟩⟩ := ha
    · omega
    · omega
    · rcases hword with hfirst | ⟨hsecond, hindex⟩
      · rw [hfirst] at hw
        cases hw
        have hnibble : Word.nibble 0xA204 3 = 0xD := hdraw.1
        exact absurd hnibble (by decide)
      · rw [hsecond] at hw
        cases hw
        rw [hindex] at hrow
        exact hrow
  have hload : ∀ (earlier : Memory) (program : List UInt8), program.length ≤ 3584 →
      earlier.load program = .ok (earlier.store 0x200 program) :=
    fun earlier program h => Memory.load_eq_ok_iff.mpr ⟨h, rfl⟩
  have hold := hload Memory.zero old (by decide)
  have hover := hload (Memory.zero.store 0x200 old) image (by decide)
  have halone := hload Memory.zero image (by decide)
  obtain ⟨-, htail⟩ := steps_depend_on_reads hsp 2 other
  exact ⟨hsp, hleft, hzero, hreads, htail _ _ old image hold hover halone hreads⟩

end Operation

end ChipEight
