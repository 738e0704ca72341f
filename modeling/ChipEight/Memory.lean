import ChipEight.Fault

/-! The memory of 4096 bytes. Programs are loaded at 0x200, whole or not at all,
and loading leaves what lies beyond the image as it was. A read names the first
address that memory does not have; addresses are never reduced. -/

namespace ChipEight

abbrev Memory := Vector UInt8 4096

namespace Memory

def zero : Memory := Vector.replicate 4096 0

/-- The most bytes that a program may have, from 0x200 to the end. -/
def capacity : Nat := 3584

/-- The memory with a byte after another stored from `address` on. -/
def store (m : Memory) (address : Nat) : List UInt8 → Memory
  | [] => m
  | byte :: rest => store (m.setIfInBounds address byte) (address + 1) rest

def load (m : Memory) (image : List UInt8) : Except Fault Memory :=
  if image.length ≤ capacity then .ok (m.store 0x200 image)
  else .error (.programTooLarge image.length capacity)

def readByte (m : Memory) (address : UInt16) : Except Fault UInt8 :=
  if h : address.toNat < 4096 then .ok m[address.toNat]
  else .error (.addressOutOfRange address.toNat)

/-- The `count` bytes from `address` on. To read no bytes touches no address. -/
def readBytes (m : Memory) (address : UInt16) (count : Nat) : Except Fault (List UInt8) :=
  if count = 0 then .ok []
  else if h : address.toNat + count ≤ 4096 then
    .ok (List.ofFn fun k : Fin count => m[address.toNat + k.val])
  else .error (.addressOutOfRange (max address.toNat 4096))

/-- The word that the two bytes from `address` on make up. -/
def readWord (m : Memory) (address : UInt16) : Except Fault Word :=
  (m.readBytes address 2).map fun bytes => Word.ofBytes (bytes.getD 0 0) (bytes.getD 1 0)

/-- What is stored lies over what was there, and changes nothing else. -/
theorem getElem_store (m : Memory) (address : Nat) (image : List UInt8) (a : Nat)
    (h : a < 4096) :
    (m.store address image)[a] =
      if address ≤ a then image[a - address]?.getD m[a] else m[a] := by
  induction image generalizing m address with
  | nil => simp [store]
  | cons byte rest ih =>
    rw [store, ih, Vector.getElem_setIfInBounds h]
    by_cases heq : address = a
    · subst heq
      rw [if_neg (by omega), if_pos rfl]
      simp
    · rw [if_neg heq]
      by_cases hle : address ≤ a
      · rw [if_pos (by omega), if_pos hle, show a - address = (a - (address + 1)) + 1 by omega,
          List.getElem?_cons_succ]
      · rw [if_neg (by omega), if_neg hle]

theorem load_eq_ok_iff {m m' : Memory} {image : List UInt8} :
    m.load image = .ok m' ↔ image.length ≤ capacity ∧ m' = m.store 0x200 image := by
  unfold load
  split
  · rename_i h
    simp [h, eq_comm]
  · rename_i h
    simp [h]

theorem readByte_eq_ok {m : Memory} {address : UInt16} (h : address.toNat < 4096) :
    m.readByte address = .ok m[address.toNat] := dif_pos h

theorem readByte_eq_ok_iff {m : Memory} {address : UInt16} {byte : UInt8} :
    m.readByte address = .ok byte ↔ m[address.toNat]? = some byte := by
  unfold readByte
  split
  · rename_i h
    simp [h]
  · rename_i h
    simp [h]

theorem readByte_eq_error_iff {m : Memory} {address : UInt16} {fault : Fault} :
    m.readByte address = .error fault ↔
      4096 ≤ address.toNat ∧ fault = .addressOutOfRange address.toNat := by
  unfold readByte
  split
  · rename_i h
    simp [Nat.not_le.mpr h]
  · rename_i h
    simp [Nat.not_lt.mp h, eq_comm]

/-- Both bytes of a word must be in memory. -/
theorem readWord_eq (m : Memory) (address : UInt16) :
    m.readWord address =
      if h : address.toNat + 1 < 4096 then
        .ok (Word.ofBytes m[address.toNat] m[address.toNat + 1])
      else .error (.addressOutOfRange (max address.toNat 4096)) := by
  rw [readWord, readBytes, if_neg (Nat.succ_ne_zero 1)]
  by_cases h : address.toNat + 1 < 4096
  · have hle : address.toNat + 2 ≤ 4096 := by omega
    rw [dif_pos h, dif_pos hle]
    rfl
  · have hgt : ¬ address.toNat + 2 ≤ 4096 := by omega
    rw [dif_neg h, dif_neg hgt]
    rfl

theorem readWord_eq_error_iff {m : Memory} {address : UInt16} {fault : Fault} :
    m.readWord address = .error fault ↔
      4095 ≤ address.toNat ∧ fault = .addressOutOfRange (max address.toNat 4096) := by
  rw [readWord_eq]
  split
  · rename_i h
    have hlt : ¬ 4095 ≤ address.toNat := by omega
    simp [hlt]
  · rename_i h
    have hle : 4095 ≤ address.toNat := by omega
    simp [hle, eq_comm]

theorem readWord_eq_ok_iff {m : Memory} {address : UInt16} {w : Word} :
    m.readWord address = .ok w ↔
      ∃ hi lo, m[address.toNat]? = some hi ∧ m[address.toNat + 1]? = some lo ∧
        w = Word.ofBytes hi lo := by
  rw [readWord_eq]
  split
  · rename_i h
    have hlo : address.toNat < 4096 := by omega
    simp [h, hlo, eq_comm]
  · rename_i h
    constructor
    · intro h'
      cases h'
    · intro h'
      obtain ⟨hi, lo, -, hlo, -⟩ := h'
      obtain ⟨hlt, -⟩ := Vector.getElem?_eq_some_iff.mp hlo
      exact absurd hlt h

theorem readBytes_eq_error_iff {m : Memory} {address : UInt16} {count : Nat} {fault : Fault} :
    m.readBytes address count = .error fault ↔
      0 < count ∧ 4096 < address.toNat + count ∧
        fault = .addressOutOfRange (max address.toNat 4096) := by
  unfold readBytes
  split
  · rename_i hc
    constructor
    · intro h
      cases h
    · intro h'
      obtain ⟨hpos, -⟩ := h'
      omega
  · rename_i hc
    split
    · constructor
      · intro h
        cases h
      · intro h'
        obtain ⟨-, hlt, -⟩ := h'
        omega
    · rename_i hlt
      constructor
      · intro h
        cases h
        exact ⟨by omega, by omega, rfl⟩
      · intro h'
        obtain ⟨-, -, rfl⟩ := h'
        rfl

theorem getElem?_of_readBytes {m : Memory} {address : UInt16} {count : Nat} {bytes : List UInt8}
    (h : m.readBytes address count = .ok bytes) (k : Nat) :
    bytes[k]? = if k < count then m[address.toNat + k]? else none := by
  unfold readBytes at h
  split at h
  · rename_i hc
    cases h
    simp [hc]
  · split at h
    · cases h
      rw [List.getElem?_ofFn]
      split
      · rw [Vector.getElem?_eq_getElem (by omega)]
      · rfl
    · cases h

theorem length_of_readBytes {m : Memory} {address : UInt16} {count : Nat} {bytes : List UInt8}
    (h : m.readBytes address count = .ok bytes) : bytes.length = count := by
  unfold readBytes at h
  split at h
  · rename_i hc
    cases h
    exact hc.symm
  · split at h
    · cases h
      exact List.length_ofFn
    · cases h

/-- What is read are all the bytes from the address on, so many of them, in their order. -/
theorem readBytes_eq_ok_iff {m : Memory} {address : UInt16} {count : Nat} {bytes : List UInt8} :
    m.readBytes address count = .ok bytes ↔
      bytes.length = count ∧
        ∀ k byte, bytes[k]? = some byte → m[address.toNat + k]? = some byte := by
  constructor
  · intro h
    refine ⟨length_of_readBytes h, fun k byte hbyte => ?_⟩
    rw [getElem?_of_readBytes h] at hbyte
    exact (Option.ite_none_right_eq_some.mp hbyte).2
  · rintro ⟨hlength, hbytes⟩
    cases hread : m.readBytes address count with
    | ok read =>
      refine congrArg Except.ok (List.ext_getElem? fun k => ?_)
      rw [getElem?_of_readBytes hread]
      split
      · rename_i hk
        rw [← hlength] at hk
        have hbyte := List.getElem?_eq_getElem hk
        rw [hbyte, hbytes k _ hbyte]
      · rename_i hk
        rw [List.getElem?_eq_none (by omega)]
    | error fault =>
      -- The last byte would have to be in memory.
      obtain ⟨hpos, hpast, -⟩ := readBytes_eq_error_iff.mp hread
      have hlast : count - 1 < bytes.length := by omega
      obtain ⟨hlt, -⟩ :=
        Vector.getElem?_eq_some_iff.mp (hbytes _ _ (List.getElem?_eq_getElem hlast))
      omega

end Memory

end ChipEight
