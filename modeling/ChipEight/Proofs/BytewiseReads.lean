import ChipEight.Memory

/-! Reads of several bytes against reads of one. To read many bytes is to read each of them in
turn: all are in memory and come in their order, or the fault is that of the first one that is
not. A word is two such bytes. Addresses are numbers that nothing reduces, so that a range which
runs past the end of memory does not go on from its beginning. -/

namespace ChipEight.Memory

variable {m : Memory} {address : UInt16} {a count : Nat} {byte : UInt8} {bytes : List UInt8}
  {fault : Fault}

/-- The answer to a read of the byte at `a`. A number that is no address has none. -/
def Answers (m : Memory) (a : Nat) (answer : Except Fault UInt8) : Prop :=
  ∃ address : UInt16, address.toNat = a ∧ m.readByte address = answer

theorem answers_ok_iff : m.Answers a (.ok byte) ↔ m[a]? = some byte := by
  constructor
  · rintro ⟨address, rfl, h⟩
    exact readByte_eq_ok_iff.mp h
  · intro h
    obtain ⟨hlt, -⟩ := Vector.getElem?_eq_some_iff.mp h
    have haddress : (UInt16.ofNat a).toNat = a :=
      UInt16.toNat_ofNat_of_lt (Nat.lt_trans hlt (by decide))
    refine ⟨UInt16.ofNat a, haddress, readByte_eq_ok_iff.mpr ?_⟩
    rwa [haddress]

theorem answers_error_iff :
    m.Answers a (.error fault) ↔ 4096 ≤ a ∧ a < 65536 ∧ fault = .addressOutOfRange a := by
  constructor
  · rintro ⟨address, rfl, h⟩
    obtain ⟨hle, rfl⟩ := readByte_eq_error_iff.mp h
    exact ⟨hle, address.toNat_lt, rfl⟩
  · rintro ⟨hle, hlt, rfl⟩
    have haddress : (UInt16.ofNat a).toNat = a := UInt16.toNat_ofNat_of_lt hlt
    refine ⟨UInt16.ofNat a, haddress, readByte_eq_error_iff.mpr ?_⟩
    rw [haddress]
    exact ⟨hle, rfl⟩

theorem exists_answers_ok_iff : (∃ byte, m.Answers a (.ok byte)) ↔ a < 4096 := by
  simp only [answers_ok_iff]
  constructor
  · rintro ⟨byte, h⟩
    exact (Vector.getElem?_eq_some_iff.mp h).1
  · intro h
    exact ⟨m[a], Vector.getElem?_eq_getElem h⟩

theorem exists_readBytes_iff :
    (∃ bytes, m.readBytes address count = .ok bytes) ↔
      ∀ k < count, ∃ byte, m.Answers (address.toNat + k) (.ok byte) := by
  simp only [exists_answers_ok_iff]
  constructor
  · rintro ⟨bytes, h⟩ k hk
    obtain ⟨hlength, hbytes⟩ := readBytes_eq_ok_iff.mp h
    have hbyte := hbytes k _ (List.getElem?_eq_getElem (by omega))
    exact (Vector.getElem?_eq_some_iff.mp hbyte).1
  · intro h
    cases hread : m.readBytes address count with
    | ok bytes => exact ⟨bytes, rfl⟩
    | error fault =>
      obtain ⟨hpos, hpast, -⟩ := readBytes_eq_error_iff.mp hread
      have hlast := h (count - 1) (by omega)
      omega

theorem readBytes_eq_error_iff_first :
    m.readBytes address count = .error fault ↔
      ∃ k < count, (∀ j < k, ∃ byte, m.Answers (address.toNat + j) (.ok byte)) ∧
        m.Answers (address.toNat + k) (.error fault) := by
  simp only [readBytes_eq_error_iff, exists_answers_ok_iff, answers_error_iff]
  have hsize := address.toNat_lt
  constructor
  · rintro ⟨hpos, hpast, rfl⟩
    -- The first address that memory does not have, or the start if that is past the end.
    have hfirst : address.toNat + (max address.toNat 4096 - address.toNat) =
        max address.toNat 4096 := by omega
    refine ⟨max address.toNat 4096 - address.toNat, by omega, by omega, ?_⟩
    rw [hfirst]
    exact ⟨by omega, by omega, rfl⟩
  · rintro ⟨k, hk, hbefore, hle, hlt, rfl⟩
    have hfirst : address.toNat + k = max address.toNat 4096 := by
      cases k with
      | zero => omega
      | succ k =>
        have hprevious := hbefore k (Nat.lt_succ_self k)
        omega
    rw [hfirst]
    exact ⟨by omega, by omega, rfl⟩

theorem readWord_eq_ok_iff_bytes {w : Word} :
    m.readWord address = .ok w ↔
      ∃ hi lo, m.Answers address.toNat (.ok hi) ∧ m.Answers (address.toNat + 1) (.ok lo) ∧
        w.toNat = 256 * hi.toNat + lo.toNat := by
  simp only [readWord_eq_ok_iff, answers_ok_iff, Word.eq_ofBytes_iff]

theorem readWord_eq_error_iff_bytes :
    m.readWord address = .error fault ↔
      m.Answers address.toNat (.error fault) ∨
        (∃ hi, m.Answers address.toNat (.ok hi)) ∧
          m.Answers (address.toNat + 1) (.error fault) := by
  simp only [readWord_eq_error_iff, exists_answers_ok_iff, answers_error_iff]
  have hsize := address.toNat_lt
  constructor
  · rintro ⟨hle, rfl⟩
    by_cases hstart : 4096 ≤ address.toNat
    · rw [Nat.max_eq_left hstart]
      exact .inl ⟨hstart, hsize, rfl⟩
    · have hlast : address.toNat + 1 = 4096 := by omega
      rw [hlast, Nat.max_eq_right (by omega)]
      exact .inr ⟨by omega, by omega, by omega, rfl⟩
  · rintro (⟨hle, -, rfl⟩ | ⟨hlt, hle, -, rfl⟩)
    · exact ⟨by omega, by rw [Nat.max_eq_left hle]⟩
    · exact ⟨by omega, by rw [Nat.max_eq_right (by omega), show address.toNat + 1 = 4096 by omega]⟩

/-- A bulk read succeeds when each byte of the range can be read, and gives these bytes in their
order; otherwise it fails as the first byte fails that cannot be read. A word is read as its two
bytes are, the first of them its high byte. A byte that is read is the one at the very address,
and a fault names that address. -/
theorem reads_are_bytewise (m : Memory) (address : UInt16) (count : Nat) :
    ((∃ bytes, m.readBytes address count = .ok bytes) ↔
      ∀ k < count, ∃ byte, m.Answers (address.toNat + k) (.ok byte)) ∧
    (∀ bytes, m.readBytes address count = .ok bytes ↔
      bytes.length = count ∧
        ∀ k byte, bytes[k]? = some byte → m.Answers (address.toNat + k) (.ok byte)) ∧
    (∀ fault, m.readBytes address count = .error fault ↔
      ∃ k < count, (∀ j < k, ∃ byte, m.Answers (address.toNat + j) (.ok byte)) ∧
        m.Answers (address.toNat + k) (.error fault)) ∧
    (∀ w, m.readWord address = .ok w ↔
      ∃ hi lo, m.Answers address.toNat (.ok hi) ∧ m.Answers (address.toNat + 1) (.ok lo) ∧
        w.toNat = 256 * hi.toNat + lo.toNat) ∧
    (∀ fault, m.readWord address = .error fault ↔
      m.Answers address.toNat (.error fault) ∨
        (∃ hi, m.Answers address.toNat (.ok hi)) ∧
          m.Answers (address.toNat + 1) (.error fault)) ∧
    ∀ a, (∀ byte, m.Answers a (.ok byte) ↔ m[a]? = some byte) ∧
      ∀ fault, m.Answers a (.error fault) ↔
        4096 ≤ a ∧ a < 65536 ∧ fault = .addressOutOfRange a := by
  refine ⟨exists_readBytes_iff, fun bytes => ?_, fun fault => readBytes_eq_error_iff_first,
    fun w => readWord_eq_ok_iff_bytes, fun fault => readWord_eq_error_iff_bytes,
    fun a => ⟨fun byte => answers_ok_iff, fun fault => answers_error_iff⟩⟩
  simp only [readBytes_eq_ok_iff, answers_ok_iff]

end ChipEight.Memory
