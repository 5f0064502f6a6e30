import Mathlib.Tactic.NormNum
import Mathlib.Data.Nat.Bits

/-! # Big-endian fields

Fixed-width unsigned fields are written most significant byte first and read back as
natural numbers. Buffers are read in slices and overwritten in place.
-/

namespace SourceCompanion.Bytes

def ascii (s : List Char) : List UInt8 := s.map fun c => UInt8.ofNat c.toNat

def be16 (n : UInt16) : List UInt8 := [(n >>> 8).toUInt8, n.toUInt8]

def be24 (n : UInt32) : List UInt8 := [(n >>> 16).toUInt8, (n >>> 8).toUInt8, n.toUInt8]

def be32 (n : UInt32) : List UInt8 :=
  [(n >>> 24).toUInt8, (n >>> 16).toUInt8, (n >>> 8).toUInt8, n.toUInt8]

/-- The number that a string of bytes denotes, most significant byte first. -/
def ofBE (bytes : List UInt8) : ℕ := bytes.foldl (fun n b => n * 256 + b.toNat) 0

@[simp] theorem length_ascii (s : List Char) : (ascii s).length = s.length := by simp [ascii]

@[simp] theorem length_be16 (n : UInt16) : (be16 n).length = 2 := rfl

@[simp] theorem length_be24 (n : UInt32) : (be24 n).length = 3 := rfl

@[simp] theorem length_be32 (n : UInt32) : (be32 n).length = 4 := rfl

@[simp] theorem ofBE_nil : ofBE [] = 0 := rfl

@[simp] theorem ofBE_singleton (b : UInt8) : ofBE [b] = b.toNat := by simp [ofBE]

@[simp] theorem ofBE_be16 (n : UInt16) : ofBE (be16 n) = n.toNat := by
  have := n.toNat_lt
  simp [ofBE, be16, Nat.shiftRight_eq_div_pow]
  omega

@[simp] theorem ofBE_be24 (n : UInt32) : ofBE (be24 n) = n.toNat % 2 ^ 24 := by
  have := n.toNat_lt
  simp [ofBE, be24, Nat.shiftRight_eq_div_pow]
  omega

@[simp] theorem ofBE_be32 (n : UInt32) : ofBE (be32 n) = n.toNat := by
  have := n.toNat_lt
  simp [ofBE, be32, Nat.shiftRight_eq_div_pow]
  omega

@[simp] theorem ofBE_low16 (n : UInt32) :
    ofBE [(n >>> 8).toUInt8, n.toUInt8] = n.toNat % 2 ^ 16 := by
  have := n.toNat_lt
  simp [ofBE, Nat.shiftRight_eq_div_pow]
  omega

theorem or_mul_two_pow {x k : ℕ} (hx : x < 2 ^ k) (y : ℕ) : x ||| y * 2 ^ k = x + y * 2 ^ k := by
  rw [Nat.or_comm, ← Nat.shiftLeft_eq, ← Nat.shiftLeft_add_eq_or_of_lt hx, Nat.add_comm]

theorem toNat_mask (x : UInt32) {n : ℕ} (mask : UInt32) (h : mask.toNat = 2 ^ n - 1) :
    (x &&& mask).toNat = x.toNat % 2 ^ n := by
  rw [UInt32.toNat_and, h, Nat.and_two_pow_sub_one_eq_mod]

def slice (bytes : List UInt8) (off len : ℕ) : List UInt8 := (bytes.drop off).take len

theorem slice_append_left {v w : List UInt8} {off len : ℕ} (h : off + len ≤ v.length) :
    slice (v ++ w) off len = slice v off len := by
  rw [slice, List.drop_append_of_le_length (by omega),
    List.take_append_of_le_length (by rw [List.length_drop]; omega), slice]

theorem slice_append_right {v w : List UInt8} {off len : ℕ} (h : v.length ≤ off) :
    slice (v ++ w) off len = slice w (off - v.length) len := by
  rw [slice, List.drop_append, List.drop_of_length_le h, List.nil_append, slice]

theorem slice_self {v : List UInt8} {len : ℕ} (h : v.length = len) : slice v 0 len = v := by
  rw [slice, List.drop_zero, List.take_of_length_le h.le]

def memcpy (buffer : List UInt8) (offset : ℕ) (part : List UInt8) : List UInt8 :=
  buffer.take offset ++ part ++ buffer.drop (offset + part.length)

def resize (buffer : List UInt8) (size : ℕ) : List UInt8 :=
  buffer.take size ++ List.replicate (size - buffer.length) 0

section Memcpy

variable {buffer part : List UInt8} {offset : ℕ}

theorem length_memcpy (h : offset + part.length ≤ buffer.length) :
    (memcpy buffer offset part).length = buffer.length := by
  simp only [memcpy, List.length_append, List.length_take, List.length_drop]
  omega

theorem take_memcpy (h : offset ≤ buffer.length) :
    (memcpy buffer offset part).take (offset + part.length) = buffer.take offset ++ part := by
  refine List.take_left' ?_
  rw [List.length_append, List.length_take, Nat.min_eq_left h]

theorem memcpy_append {v old w : List UInt8} (hoff : v.length = offset)
    (hlen : old.length = part.length) : memcpy (v ++ old ++ w) offset part = v ++ part ++ w := by
  rw [memcpy, List.append_assoc v old w, List.take_left' hoff, ← List.append_assoc v old w,
    List.drop_left' (by rw [List.length_append, hoff, hlen])]

/-- Two writes one after the other are one. -/
theorem memcpy_memcpy (v w : List UInt8) (h : offset ≤ buffer.length) :
    memcpy (memcpy buffer offset v) (offset + v.length) w = memcpy buffer offset (v ++ w) := by
  have hlen : (buffer.take offset ++ v).length = offset + v.length := by
    rw [List.length_append, List.length_take, Nat.min_eq_left h]
  have hdrop : (buffer.take offset ++ v ++ buffer.drop (offset + v.length)).drop
      (offset + v.length + w.length) = buffer.drop (offset + (v ++ w).length) := by
    rw [← List.drop_drop, List.drop_left' hlen, List.drop_drop, List.length_append, Nat.add_assoc]
  simp only [memcpy]
  rw [hdrop, List.take_left' hlen, List.append_assoc (buffer.take offset)]

theorem memcpy_before {v w : List UInt8} (hlen : v.length = offset) (h : offset ≤ buffer.length) :
    memcpy (memcpy buffer offset w) 0 v = memcpy buffer 0 (v ++ w) := by
  have htake : (buffer.take offset).length = v.length := by
    rw [List.length_take, Nat.min_eq_left h, hlen]
  simp only [memcpy, List.take_zero, List.nil_append, Nat.zero_add, List.append_assoc]
  rw [List.drop_left' htake, List.length_append, hlen]

theorem memcpy_behind {v w : List UInt8} (hlen : v.length = offset) :
    memcpy (memcpy buffer 0 v) offset w = memcpy buffer 0 (v ++ w) := by
  simpa [hlen] using memcpy_memcpy v w (Nat.zero_le buffer.length)

theorem resize_eq {size : ℕ} (h : buffer.length ≤ size) :
    resize buffer size = buffer ++ List.replicate (size - buffer.length) 0 := by
  rw [resize, List.take_of_length_le h]

end Memcpy

end SourceCompanion.Bytes
