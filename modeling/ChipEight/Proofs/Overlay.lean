import ChipEight.Proofs.Performed

/-! What memory holds. Nothing but a load writes to it, and a load writes its whole image
or, if that is too large, nothing at all; no instruction does, and a reset leaves it alone.
So each byte is the one that the latest load brought there, and what lies beyond a shorter
image stays from the loads before it. -/

namespace ChipEight

namespace Memory

/-- The byte that an image brings to an address, if it covers it. -/
def placed (image : List UInt8) (a : Nat) : Option UInt8 :=
  if 0x200 ≤ a then image[a - 0x200]? else none

theorem placed_eq_none_iff {image : List UInt8} {a : Nat} :
    placed image a = none ↔ a < 0x200 ∨ 0x200 + image.length ≤ a := by
  unfold placed
  split
  · rw [List.getElem?_eq_none_iff]
    omega
  · simp only [true_iff]
    omega

theorem getElem_store_placed (m : Memory) (image : List UInt8) (a : Nat) (h : a < 4096) :
    (m.store 0x200 image)[a] = (placed image a).getD m[a] := by
  rw [getElem_store m 0x200 image a h, placed]
  split <;> rfl

/-- What an image was loaded over is seen only behind its end. -/
theorem getElem_store_store (m : Memory) (old image : List UInt8) (a : Nat) (h : a < 4096)
    (htail : a < 0x200 + image.length ∨ 0x200 + old.length ≤ a) :
    ((m.store 0x200 old).store 0x200 image)[a] = (m.store 0x200 image)[a] := by
  rw [getElem_store_placed _ image a h, getElem_store_placed _ old a h,
    getElem_store_placed m image a h]
  cases himage : placed image a with
  | some byte => rfl
  | none =>
    have hold : placed old a = none := by
      rw [placed_eq_none_iff] at himage ⊢
      omega
    rw [hold]
    rfl

theorem readByte_store_of_placed {image : List UInt8} {a : UInt16}
    (h : placed image a.toNat = none) (m : Memory) :
    (m.store 0x200 image).readByte a = m.readByte a := by
  unfold readByte
  split
  · rename_i ha
    rw [getElem_store_placed m image _ ha, h, Option.getD_none]
  · rfl

/-- Images loaded one over another, the first of them over `m`. -/
def overlaid (m : Memory) (images : List (List UInt8)) : Memory :=
  images.foldl (store · 0x200) m

theorem getElem_overlaid (m : Memory) (images : List (List UInt8)) (a : Nat) (h : a < 4096) :
    (m.overlaid images)[a] = (images.reverse.findSome? (placed · a)).getD m[a] := by
  induction images generalizing m with
  | nil => rfl
  | cons image rest ih =>
    rw [overlaid, List.foldl_cons, ← overlaid, ih, getElem_store_placed m image a h,
      List.reverse_cons, List.findSome?_append, List.findSome?_singleton]
    cases rest.reverse.findSome? (placed · a) <;> rfl

/-- The latest image that covers an address gives its byte, and `m` does if none covers it. -/
theorem getElem_overlaid_cases (m : Memory) (images : List (List UInt8)) (a : Nat)
    (h : a < 4096) :
    (∃ before image since, images = before ++ image :: since ∧
      placed image a = some (m.overlaid images)[a] ∧ ∀ later ∈ since, placed later a = none) ∨
    (∀ image ∈ images, placed image a = none) ∧ (m.overlaid images)[a] = m[a] := by
  rw [getElem_overlaid m images a h]
  cases hfind : images.reverse.findSome? (placed · a) with
  | none =>
    rw [List.findSome?_eq_none_iff] at hfind
    exact .inr ⟨fun image hmem => hfind image (List.mem_reverse.mpr hmem), rfl⟩
  | some byte =>
    obtain ⟨since, image, before, hsplit, hplaced, hsince⟩ := List.findSome?_eq_some_iff.mp hfind
    refine .inl ⟨before.reverse, image, since.reverse, ?_, hplaced, fun later hmem => ?_⟩
    · rw [← List.reverse_reverse images, hsplit]
      simp
    · exact hsince later (List.mem_reverse.mp hmem)

end Memory

namespace Operation

/-- The image that an operation with this reply loads. -/
def loaded : Operation → Except Stop Reply → Option (List UInt8)
  | load image, .ok _ => some image
  | _, _ => none

variable {σ : Type} [RandomSource σ] {m next : Machine σ} {operation : Operation}
  {reply : Except Stop Reply}

/-- The images that a history loads, in order. A load that fails is none of them. -/
def images (m : Machine σ) (history : List Operation) : List (List UInt8) :=
  collect (fun _ => loaded) m history

theorem Outcome.memory_eq (h : operation.Outcome m reply next) :
    next.memory = m.memory.overlaid (operation.loaded reply).toList := by
  cases h with
  | loaded hload => exact (Memory.load_eq_ok_iff.mp hload).2
  | failed => cases operation <;> rfl
  | stepped | executed | reset | pressed | released | written | taken | kept => rfl

theorem memory_after (hsp : m.state.sp.toNat ≤ 16) (history : List Operation) :
    (after m history).memory = m.memory.overlaid (images m history) := by
  induction history generalizing m with
  | nil => rfl
  | cons operation rest ih =>
    have hfirst := (outcome_apply hsp operation).memory_eq
    have hrest := ih (sp_le_apply hsp operation)
    rw [hfirst, Memory.overlaid, Memory.overlaid, ← List.foldl_append] at hrest
    exact hrest

theorem loaded_eq_none (h : ∀ image, operation ≠ load image) (reply : Except Stop Reply) :
    operation.loaded reply = none := by
  cases operation with
  | load image => exact absurd rfl (h image)
  | _ => rfl

theorem images_eq_nil {history : List Operation} (hload : ∀ image, load image ∉ history) :
    images m history = [] := by
  induction history generalizing m with
  | nil => rfl
  | cons operation rest ih =>
    have hnone : operation.loaded (operation.apply m).1 = none :=
      loaded_eq_none (fun image heq => hload image (heq ▸ .head _)) _
    have hrest : images (operation.apply m).2 rest = [] :=
      ih fun image hmem => hload image (.tail _ hmem)
    rw [images, collect, hnone]
    exact hrest

theorem memory_after_of_not_load (hsp : m.state.sp.toNat ≤ 16) {history : List Operation}
    (hload : ∀ image, load image ∉ history) : (after m history).memory = m.memory := by
  rw [memory_after hsp, images_eq_nil hload]
  rfl

theorem load_succeeds_iff (hsp : m.state.sp.toNat ≤ 16) (image : List UInt8) :
    (∃ reply, ((load image).apply m).1 = .ok reply) ↔ image.length ≤ 3584 := by
  rw [apply_eq hsp, result, Machine.load, Memory.load]
  by_cases h : image.length ≤ Memory.capacity
  · rw [if_pos h]
    exact ⟨fun _ => h, fun _ => ⟨_, rfl⟩⟩
  · rw [if_neg h]
    refine ⟨?_, fun hle => absurd hle h⟩
    rintro ⟨reply, hreply⟩
    cases hreply

theorem memory_after_load (hsp : m.state.sp.toNat ≤ 16) {image : List UInt8}
    (h : image.length ≤ 3584) :
    (after m [load image]).memory = m.memory.store 0x200 image := by
  rw [memory_after hsp, images, collect, collect, List.append_nil]
  obtain ⟨reply, hreply⟩ := (load_succeeds_iff hsp image).mpr h
  rw [hreply]
  rfl

/-- Over an empty memory, a byte is that of the latest load that covers its address, and
0 where there is none. A load succeeds or not by its length alone. -/
theorem memory_overlays_loads (hempty : m.memory = Memory.zero) (hsp : m.state.sp.toNat ≤ 16)
    (history : List Operation) :
    let now := after m history
    (∀ image, (∃ reply, ((load image).apply now).1 = .ok reply) ↔ image.length ≤ 3584) ∧
      (∀ a : UInt16, a.toNat < 4096 → ∃ byte, now.memory.readByte a = .ok byte ∧
        ((∃ before image since, images m history = before ++ image :: since ∧
          Memory.placed image a.toNat = some byte ∧
          ∀ later ∈ since, Memory.placed later a.toNat = none) ∨
        (∀ image ∈ images m history, Memory.placed image a.toNat = none) ∧ byte = 0)) ∧
      (∀ a : UInt16, a.toNat < 0x200 → now.memory.readByte a = .ok 0) ∧
      ∀ (image : List UInt8) (a : UInt16), image.length ≤ 3584 → 0x200 + image.length ≤ a.toNat →
        (after m (history ++ [load image])).memory.readByte a = now.memory.readByte a := by
  intro now
  have hnow : now.state.sp.toNat ≤ 16 := sp_le_after hsp history
  have hmemory : now.memory = Memory.zero.overlaid (images m history) := by
    rw [← hempty]
    exact memory_after hsp history
  have hread : ∀ a : UInt16, a.toNat < 4096 → ∃ byte, now.memory.readByte a = .ok byte ∧
      ((∃ before image since, images m history = before ++ image :: since ∧
        Memory.placed image a.toNat = some byte ∧
        ∀ later ∈ since, Memory.placed later a.toNat = none) ∨
      (∀ image ∈ images m history, Memory.placed image a.toNat = none) ∧ byte = 0) := by
    intro a ha
    have hzero : Memory.zero[a.toNat] = 0 := Vector.getElem_replicate ha
    rw [hmemory, Memory.readByte_eq_ok ha, ← hzero]
    exact ⟨_, rfl, Memory.getElem_overlaid_cases Memory.zero (images m history) _ ha⟩
  refine ⟨load_succeeds_iff hnow, hread, fun a ha => ?_, fun image a hlength ha => ?_⟩
  · obtain ⟨byte, hbyte, ⟨before, image, since, -, hplaced, -⟩ | ⟨-, rfl⟩⟩ := hread a (by omega)
    · rw [Memory.placed_eq_none_iff.mpr (.inl ha)] at hplaced
      cases hplaced
    · exact hbyte
  · rw [after_append, memory_after_load hnow hlength]
    exact Memory.readByte_store_of_placed (Memory.placed_eq_none_iff.mpr (.inr ha)) now.memory

/-- Four bytes, an image that is too large, and two bytes over the first of the four. -/
theorem memory_overlays_loads_shorter_image :
    let m := Machine.ofMemory Memory.zero (Progression.mk 0 0)
    let history := [load [1, 2, 3, 4], step, load (List.replicate 3585 7), load [9, 8]]
    m.memory = Memory.zero ∧ m.state.sp.toNat ≤ 16 ∧
      images m history = [[1, 2, 3, 4], [9, 8]] ∧
      (after m history).memory.readByte 0x202 = .ok 3 ∧
      (after m history).memory.readByte 0x1FF = .ok 0 := by
  intro m history
  have hsp : m.state.sp.toNat ≤ 16 := by decide
  have himages : images m history = [[1, 2, 3, 4], [9, 8]] := by decide +kernel
  obtain ⟨-, hread, hlow, -⟩ := memory_overlays_loads (m := m) rfl hsp history
  obtain ⟨byte, hbyte, hcases⟩ := hread 0x202 (by decide)
  rw [himages] at hcases
  have hthree : byte = 3 := by
    rcases hcases with ⟨before, image, since, hsplit, hplaced, -⟩ | ⟨hnone, -⟩
    · have hmem : image ∈ [[1, 2, 3, 4], [9, 8]] := by simp [hsplit]
      simp only [List.mem_cons, List.not_mem_nil, or_false] at hmem
      rcases hmem with rfl | rfl
      · exact (Option.some.inj hplaced).symm
      · cases hplaced
    · exact absurd (hnone [1, 2, 3, 4] (.head _)) (by decide)
  exact ⟨rfl, hsp, himages, hthree ▸ hbyte, hlow 0x1FF (by decide)⟩

end Operation

end ChipEight
