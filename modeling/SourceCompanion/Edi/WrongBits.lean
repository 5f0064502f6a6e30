import SourceCompanion.Crc.Distance
import SourceCompanion.Edi.CrcSerial

/-! # Wrong bits

The register of the checksum has a period of 32767 bits. So up to three wrong bits are seen in
4095 bytes, and in more bytes two wrong bits may go unseen.
-/

namespace SourceCompanion.Edi
open SourceCompanion.Bytes SourceCompanion.Crc SourceCompanion.Galois Function

theorem minimalPeriod_crc16 : minimalPeriod (timesX 0x1021#16) 1#16 = 32767 := by
  have hpower (bits : List Bool) := powerOfBits_eq 0x1021#16 bits
  refine minimalPeriod_of_power _ ?_ fun p hp hdvd => ?_
  · exact (hpower (List.replicate 15 true)).symm.trans (by decide +kernel)
  · have hp' : p = 7 ∨ p = 31 ∨ p = 151 := by
      rw [show 32767 = 7 * 31 * 151 from rfl, hp.dvd_mul, hp.dvd_mul,
        Nat.prime_dvd_prime_iff_eq hp (by decide), Nat.prime_dvd_prime_iff_eq hp (by decide),
        Nat.prime_dvd_prime_iff_eq hp (by decide +kernel), or_assoc] at hdvd
      exact hdvd
    rcases hp' with rfl | rfl | rfl
    · exact (hpower [true, false, false, true, false, false, true, false, false, true, false,
        false, true]).symm.trans_ne (by decide +kernel)
    · exact (hpower [true, false, false, false, false, true, false, false, false, false,
        true]).symm.trans_ne (by decide +kernel)
    · exact (hpower [true, true, false, true, true, false, false, true]).symm.trans_ne
        (by decide +kernel)

/-- The number of bits in which byte strings differ. -/
def wrongBits (a b : List UInt8) : ℕ :=
  (List.zipWith xor (messageBits a) (messageBits b)).count true

theorem crc16_ne_of_wrongBits (crc : UInt16) {a b : List UInt8} (hlen : a.length = b.length)
    (hshort : a.length ≤ 4095) (hne : a ≠ b) (hfew : wrongBits a b ≤ 3) :
    crc16 crc a ≠ crc16 crc b := by
  intro h
  refine serial_ne_of_count (g := 0x1021#16) (by decide) (by decide) crc.toBitVec ?_ ?_
    (fun hbits => hne (messageBits_injective hbits)) hfew ?_
  · rw [length_messageBits, length_messageBits, hlen]
  · rw [length_messageBits, minimalPeriod_crc16]
    omega
  · rw [← toBitVec_crc16, ← toBitVec_crc16, h]

/-! ## A period apart -/

theorem messageBits_zeros (n : ℕ) :
    messageBits (List.replicate n 0) = List.replicate (8 * n) false := by
  induction n with
  | zero => rfl
  | succ n ih =>
    rw [List.replicate_succ, messageBits_cons, ih, UInt8.toBitVec_zero, topBits_zero,
      List.replicate_append_replicate]
    congr 1
    omega

theorem messageBits_append (a b : List UInt8) :
    messageBits (a ++ b) = messageBits a ++ messageBits b := List.flatMap_append

/-- The first bit and the one a period after it, in byte 4095, followed by `n` bytes. -/
def apart (n : ℕ) : List UInt8 := 0x80 :: (List.replicate 4094 0 ++ 0x01 :: List.replicate n 0)

theorem messageBits_apart (n : ℕ) : messageBits (apart n) =
    true :: (List.replicate 32766 false ++ true :: List.replicate (8 * n) false) := by
  have hfirst : topBits 8 (UInt8.toBitVec 0x80) = true :: List.replicate 7 false := by decide
  have hlast : topBits 8 (UInt8.toBitVec 0x01) = List.replicate 7 false ++ [true] := by decide
  rw [apart, messageBits_cons, messageBits_append, messageBits_cons, messageBits_zeros,
    messageBits_zeros, hfirst, hlast]
  simp only [List.cons_append, List.append_assoc, List.nil_append]
  simp only [← List.append_assoc, List.replicate_append_replicate]

theorem length_apart (n : ℕ) : (apart n).length = 4096 + n := by
  rw [apart, List.length_cons, List.length_append, List.length_cons, List.length_replicate,
    List.length_replicate]
  omega

theorem wrongBits_apart (n : ℕ) : wrongBits (List.replicate (4096 + n) 0) (apart n) = 2 := by
  have hlen : 8 * (4096 + n) = (messageBits (apart n)).length := by
    rw [length_messageBits, length_apart]
  rw [wrongBits, messageBits_zeros, hlen, zipWith_zeros, messageBits_apart]
  simp only [List.count_cons_self, List.count_append, List.count_replicate]
  rfl

theorem crc16_apart (crc : UInt16) (n : ℕ) :
    crc16 crc (List.replicate (4096 + n) 0) = crc16 crc (apart n) := by
  have hperiod : power 0x1021#16 (32766 + 1) = 1#16 := by
    have h := iterate_minimalPeriod (f := timesX 0x1021#16) (x := 1#16)
    rwa [minimalPeriod_crc16] at h
  have hzero := serial_of_apart 0x1021#16 (by decide) hperiod (8 * n)
  rw [← messageBits_apart] at hzero
  refine UInt16.toBitVec_inj.mp ?_
  rw [toBitVec_crc16, toBitVec_crc16, serial_eq_xor _ _ (messageBits (apart n)), hzero,
    BitVec.xor_zero, messageBits_zeros, serial_zeros, length_messageBits, length_apart]

/-- Up to three wrong bits are seen in byte strings of a length if and only if that is at most
4095. -/
theorem crc16_sees_iff (n : ℕ) :
    (∀ (crc : UInt16) (a b : List UInt8), a.length = n → b.length = n → a ≠ b →
      wrongBits a b ≤ 3 → crc16 crc a ≠ crc16 crc b) ↔ n ≤ 4095 := by
  constructor
  · intro h
    by_contra hlong
    obtain ⟨k, rfl⟩ : ∃ k, n = 4096 + k := ⟨n - 4096, by omega⟩
    have hne : List.replicate (4096 + k) 0 ≠ apart k := fun heq => by
      rw [Nat.add_comm, List.replicate_succ, apart, List.cons.injEq] at heq
      exact absurd heq.1 (by decide)
    exact h 0 _ _ List.length_replicate (length_apart k) hne (by rw [wrongBits_apart]; decide)
      (crc16_apart 0 k)
  · intro hshort crc a b ha hb
    exact crc16_ne_of_wrongBits crc (ha.trans hb.symm) (by omega)

/-! ## Packets -/

/-- Two bytes that are read as a number are the field that holds it. -/
theorem eq_be16_of_ofBE {bytes : List UInt8} {n : UInt16} (hlen : bytes.length = 2)
    (h : ofBE bytes = n.toNat) : bytes = be16 n := by
  obtain ⟨a, b, rfl⟩ := List.length_eq_two.mp hlen
  have ha := a.toNat_lt
  have hb := b.toNat_lt
  have hn : n.toNat = a.toNat * 256 + b.toNat := by simpa [ofBE] using h.symm
  refine List.cons_eq_cons.mpr ⟨UInt8.toNat_inj.mp ?_, List.cons_eq_cons.mpr
    ⟨UInt8.toNat_inj.mp ?_, rfl⟩⟩
  · simp [hn, Nat.shiftRight_eq_div_pow]
    omega
  · simp [hn]

theorem crc16_of_readAFPacket {packet : List UInt8} {p : ℕ × List UInt8}
    (h : readAFPacket packet = some p) : crc16 0xffff packet = 0x1d0f := by
  simp only [readAFPacket, Option.ite_none_right_eq_some] at h
  obtain ⟨⟨-, hlength, hcrc⟩, -⟩ := h
  generalize ofBE (slice packet 2 4) = taglength at hlength hcrc
  have hrest : (packet.drop (10 + taglength)).length = 2 := by
    rw [List.length_drop]
    omega
  rw [slice, List.take_of_length_le hrest.le] at hcrc
  rw [← List.take_append_drop (10 + taglength) packet, eq_be16_of_ofBE hrest hcrc]
  exact crc16_append_checksum _

theorem readAFPacket_of_wrongBits {packet received : List UInt8} {p : ℕ × List UInt8}
    (h : readAFPacket packet = some p) (hlen : received.length = packet.length)
    (hshort : packet.length ≤ 4095) (hne : received ≠ packet)
    (hfew : wrongBits received packet ≤ 3) : readAFPacket received = none := by
  refine Option.eq_none_iff_forall_ne_some.mpr fun q hread => ?_
  refine crc16_ne_of_wrongBits 0xffff hlen (by omega) hne hfew ?_
  rw [crc16_of_readAFPacket h, crc16_of_readAFPacket hread]

end SourceCompanion.Edi
