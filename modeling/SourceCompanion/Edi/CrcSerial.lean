import SourceCompanion.Crc.Serial
import SourceCompanion.Edi.AFPacket
import SourceCompanion.Edi.PFT

/-! # The checksum bit by bit

The table-driven checksum is the bit-serial one with polynomial `0x1021`. The table is the one
that the generator of the same file computes. A block followed by its checksum leaves a constant,
and a burst of at most 16 bits changes the checksum.
-/

namespace SourceCompanion.Edi
open SourceCompanion.Bytes SourceCompanion.Crc

/-! ## The table -/

/-- One bit of an entry. Bit `j` of the byte is counted from the most significant one. -/
def tabStep (code : UInt16) (nb : UInt8) (crc : UInt16) (j : ℕ) : UInt16 :=
  let msb := (nb &&& (0x80 >>> UInt8.ofNat j) != 0) ^^ (crc >>> 15 != 0)
  if msb then (crc <<< 1) ^^^ code else crc <<< 1

def crc16tabEntry (code init : UInt16) (i : ℕ) : UInt16 :=
  (List.range 8).foldl (tabStep code (UInt8.ofNat i ^^^ 0xff)) init ^^^ 0xff00

/-- The table that the generator leaves behind. -/
def initCrc16tab (code init : UInt16) : Array UInt16 :=
  ((List.range 256).map (crc16tabEntry code init)).toArray

theorem crc16tab_eq : crc16tab = initCrc16tab 0x1021 0xffff := by
  have : crc16tab.toList = (List.range 256).map (crc16tabEntry 0x1021 0xffff) := by
    decide +kernel
  rw [initCrc16tab, ← this, Array.toArray_toList]

theorem shiftRight_ne_zero (crc : UInt16) : (crc >>> 15 != 0) = crc.toBitVec.msb := by
  rw [BitVec.msb_eq_decide, Bool.eq_iff_iff, bne_iff_ne, decide_eq_true_iff, ne_eq,
    ← UInt16.toNat_inj, UInt16.toNat_shiftRight]
  simp [Nat.shiftRight_eq_div_pow]

theorem toBitVec_tabStep (code : UInt16) (nb : UInt8) (crc : UInt16) (j : ℕ) :
    (tabStep code nb crc j).toBitVec =
      bitStep code.toBitVec crc.toBitVec (nb &&& (0x80 >>> UInt8.ofNat j) != 0) := by
  rw [tabStep, shiftRight_ne_zero, bitStep, Bool.xor_comm]
  cases crc.toBitVec.msb ^^ (nb &&& (0x80 >>> UInt8.ofNat j) != 0) <;> simp

theorem topBits_byte (nb : UInt8) :
    topBits 8 nb.toBitVec = (List.range 8).map fun j => nb &&& (0x80 >>> UInt8.ofNat j) != 0 := by
  have hmask : ∀ j < 8, (0x80 >>> UInt8.ofNat j : UInt8).toBitVec = BitVec.twoPow 8 (7 - j) := by
    decide
  have hpow : ∀ j < 8, BitVec.twoPow 8 (7 - j) ≠ 0#8 := by decide
  have hbit : ∀ j < 8, nb.toBitVec.getMsbD j = (nb &&& (0x80 >>> UInt8.ofNat j) != 0) := by
    intro j hj
    have hand : (nb &&& (0x80 >>> UInt8.ofNat j)).toBitVec =
        if nb.toBitVec.getLsbD (7 - j) then BitVec.twoPow 8 (7 - j) else 0#8 := by
      rw [UInt8.toBitVec_and, hmask j hj, BitVec.and_twoPow]
    rw [Bool.eq_iff_iff, bne_iff_ne, ne_eq, ← UInt8.toBitVec_inj, hand, BitVec.getMsbD]
    by_cases hb : nb.toBitVec.getLsbD (7 - j)
    · simpa [hj, hb] using hpow j hj
    · simp [hb]
  simp [topBits, List.range_succ, BitVec.msb_eq_getMsbD_zero, hbit]

theorem toBitVec_foldl_tabStep (code crc : UInt16) (nb : UInt8) :
    ((List.range 8).foldl (tabStep code nb) crc).toBitVec =
      serial code.toBitVec crc.toBitVec (topBits 8 nb.toBitVec) := by
  rw [topBits_byte, serial, List.foldl_map]
  exact (List.foldl_hom UInt16.toBitVec fun crc j => (toBitVec_tabStep code nb crc j).symm).symm

/-- Whatever the polynomial, an entry is the register after one byte. The complement of the
byte meets the ones in the register. -/
theorem toBitVec_crc16tabEntry (code : UInt16) (i : ℕ) :
    (crc16tabEntry code 0xffff i).toBitVec =
      serial code.toBitVec 0#16 (topBits 8 (BitVec.ofNat 8 i)) := by
  rw [crc16tabEntry, UInt16.toBitVec_xor, toBitVec_foldl_tabStep, serial_block,
    length_topBits]
  have hones : topBits 8 (UInt16.toBitVec 0xffff) = topBits 8 (UInt8.toBitVec 0xff) := by decide
  have hbyte : UInt8.toBitVec 0xff ^^^ (UInt8.ofNat i ^^^ 0xff).toBitVec = BitVec.ofNat 8 i := by
    rw [← UInt8.toBitVec_xor, UInt8.xor_comm, UInt8.xor_assoc, UInt8.xor_self, UInt8.xor_zero]
    rfl
  have hhigh : UInt16.toBitVec 0xff00 ^^^ UInt16.toBitVec 0xffff <<< 8 = 0#16 := by decide
  rw [hones, zipWith_topBits, hbyte, BitVec.xor_comm, ← BitVec.xor_assoc, hhigh,
    BitVec.zero_xor]

theorem crc16tab_getD (x : BitVec 8) :
    (crc16tab.getD x.toNat 0).toBitVec = serial 0x1021#16 0#16 (topBits 8 x) := by
  have hentry : crc16tab.getD x.toNat 0 = crc16tabEntry 0x1021 0xffff x.toNat := by
    rw [crc16tab_eq]
    simp [initCrc16tab, x.isLt]
  rw [hentry, toBitVec_crc16tabEntry, BitVec.ofNat_toNat, BitVec.setWidth_eq]
  rfl

/-! ## The definition bit by bit -/

/-- The bits of a byte string, each byte most significant bit first. -/
def messageBits (data : List UInt8) : List Bool := data.flatMap fun byte => topBits 8 byte.toBitVec

/-- The bit-serial checksum with polynomial `0x1021`, most significant bit first. -/
def crc16Serial (crc : UInt16) (data : List UInt8) : UInt16 :=
  .ofBitVec (serial 0x1021#16 crc.toBitVec (messageBits data))

@[simp] theorem messageBits_nil : messageBits [] = [] := rfl

@[simp] theorem messageBits_cons (byte : UInt8) (data : List UInt8) :
    messageBits (byte :: data) = topBits 8 byte.toBitVec ++ messageBits data := rfl

theorem length_messageBits (data : List UInt8) : (messageBits data).length = 8 * data.length := by
  induction data with
  | nil => rfl
  | cons byte data ih => simp [ih]; omega

theorem messageBits_injective : ∀ {a b : List UInt8}, messageBits a = messageBits b → a = b
  | [], [], _ => rfl
  | [], _ :: _, h | _ :: _, [], h => by simp [topBits] at h
  | x :: a, y :: b, h => by
      obtain ⟨hbyte, hrest⟩ := List.append_inj h (by simp)
      rw [UInt8.toBitVec_inj.mp (topBits_injective hbyte), messageBits_injective hrest]

theorem messageBits_be16 (n : UInt16) : messageBits (be16 n) = topBits 16 n.toBitVec := by
  have hhigh : topBits 8 (n >>> 8).toUInt8.toBitVec = topBits 8 n.toBitVec :=
    topBits_high (by decide) n.toBitVec
  have hlow : topBits 8 n.toUInt8.toBitVec = topBits 8 (n.toBitVec <<< 8) :=
    topBits_low (by decide) n.toBitVec
  rw [be16, messageBits_cons, messageBits_cons, messageBits_nil, List.append_nil, hhigh, hlow,
    ← topBits_add]

/-! ## Equivalence -/

theorem crc16_index (crc : UInt16) (byte : UInt8) : ((crc >>> 8) ^^^ byte.toUInt16).toNat =
    ((crc.toBitVec >>> 8).setWidth 8 ^^^ byte.toBitVec).toNat := by
  have hlt : crc.toNat >>> 8 < 256 := by
    have := crc.toNat_lt
    rw [Nat.shiftRight_eq_div_pow]
    omega
  simp [Nat.mod_eq_of_lt hlt]

theorem toBitVec_crc16Step (crc : UInt16) (byte : UInt8) :
    (crc16Step crc byte).toBitVec =
      serial 0x1021#16 crc.toBitVec (topBits 8 byte.toBitVec) := by
  have htable := serial_table 0x1021#16 (by decide) crc16tab_getD crc.toBitVec byte.toBitVec
  rw [htable, crc16Step, UInt16.toBitVec_xor, crc16_index]
  rfl

theorem toBitVec_crc16 (crc : UInt16) (data : List UInt8) :
    (crc16 crc data).toBitVec = serial 0x1021#16 crc.toBitVec (messageBits data) := by
  induction data generalizing crc with
  | nil => rfl
  | cons byte data ih =>
    rw [messageBits_cons, serial_append, ← toBitVec_crc16Step, ← ih]
    rfl

theorem crc16_eq_crc16Serial (crc : UInt16) (data : List UInt8) :
    crc16 crc data = crc16Serial crc data :=
  UInt16.toBitVec_inj.mp (toBitVec_crc16 crc data)

/-! ## What the two appended bytes leave -/

theorem crc16_append (crc : UInt16) (a b : List UInt8) :
    crc16 crc (a ++ b) = crc16 (crc16 crc a) b := List.foldl_append

theorem crc16_be16_xor (crc mask : UInt16) :
    crc16 crc (be16 (crc ^^^ mask)) = crc16 0 (be16 mask) := by
  refine UInt16.toBitVec_inj.mp ?_
  rw [toBitVec_crc16, toBitVec_crc16, messageBits_be16, messageBits_be16, UInt16.toBitVec_xor,
    serial_topBits_xor]
  rfl

theorem crc16_append_checksum (data : List UInt8) :
    crc16 0xffff (data ++ be16 (checksum data)) = 0x1d0f := by
  rw [crc16_append, checksum, crc16_be16_xor]
  decide +kernel

/-! ## Bursts -/

/-- Byte strings of one length whose bits differ within a window of 16 have different checksums. -/
theorem crc16_ne_of_window (crc : UInt16) {a b : List UInt8} (hlen : a.length = b.length)
    (hne : a ≠ b) {i : ℕ}
    (hwindow : ∀ j, (messageBits a)[j]? ≠ (messageBits b)[j]? → i ≤ j ∧ j < i + 16) :
    crc16 crc a ≠ crc16 crc b := by
  intro h
  refine serial_ne_of_window (g := 0x1021#16) (by decide) crc.toBitVec ?_
    (fun hbits => hne (messageBits_injective hbits)) hwindow ?_
  · rw [length_messageBits, length_messageBits, hlen]
  · rw [← toBitVec_crc16, ← toBitVec_crc16, h]

theorem crc16_byte_injective (crc : UInt16) : Function.Injective fun byte => crc16 crc [byte] := by
  intro x y h
  by_contra hne
  refine crc16_ne_of_window crc (a := [x]) (b := [y]) rfl (by simpa using hne) (i := 0) ?_ h
  refine fun j hj => ⟨Nat.zero_le j, Nat.lt_of_not_le fun hlong => hj ?_⟩
  rw [List.getElem?_eq_none, List.getElem?_eq_none] <;> simp <;> omega

/-- The table-driven checksum is the bit-serial one. Every AF packet whose size fits 32 bits and
every fragment header leaves the same constant with its checksum, and no burst of at most 16 bits
goes unseen. -/
theorem crc16_correct :
    (∀ crc data, crc16 crc data = crc16Serial crc data) ∧
      (∀ seq payload, payload.length + 10 < 2 ^ 32 →
        crc16 0xffff (afPacket seq payload) = 0x1d0f) ∧
      (∀ (pft : PFT) (findex fcount size chunkLen zeroPad : ℕ) (payload : List UInt8),
        let header := pft.header findex fcount size chunkLen zeroPad
        crc16 0xffff ((PFT.pftFragment header payload).take (header.length + 2)) = 0x1d0f) ∧
      ∀ (crc : UInt16) (a b : List UInt8) (i : ℕ), a.length = b.length → a ≠ b →
        (∀ j, (messageBits a)[j]? ≠ (messageBits b)[j]? → i ≤ j ∧ j < i + 16) →
        crc16 crc a ≠ crc16 crc b := by
  refine ⟨crc16_eq_crc16Serial, ?_, ?_, ?_⟩
  · intro seq payload hsize
    rw [afPacket_eq, take_covered seq hsize, crc16_append_checksum]
  · intro pft findex fcount size chunkLen zeroPad payload header
    have hcovered : (PFT.pftFragment header payload).take (header.length + 2) =
        header ++ be16 (checksum header) := List.take_left' (by simp)
    rw [hcovered, crc16_append_checksum]
  · intro crc a b i hlen hne hwindow
    exact crc16_ne_of_window crc hlen hne hwindow

theorem crc16_correct_one_bit :
    crc16 0xffff (afPacket 7 [0x01]) = 0x1d0f ∧ crc16 0xffff [0x00] ≠ crc16 0xffff [0x01] := by
  refine ⟨crc16_correct.2.1 7 [0x01] (by decide), ?_⟩
  refine crc16_correct.2.2.2 0xffff [0x00] [0x01] 0 rfl (by decide) fun j hj => ?_
  refine ⟨Nat.zero_le j, Nat.lt_of_not_le fun hlong => hj ?_⟩
  rw [List.getElem?_eq_none, List.getElem?_eq_none] <;> simp <;> omega

end SourceCompanion.Edi
