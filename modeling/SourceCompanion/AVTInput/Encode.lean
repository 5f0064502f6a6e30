import SourceCompanion.AVTInput.Datagram

/-! # Frames as the encoder sends them

An STI frame has a header with the frame count and one descriptor for each stream, and the streams
behind it. Encoding states the format of the datagram, with the CRC flag where the comment in the
decoder puts it. Decoding finds the first stream.
-/

namespace SourceCompanion.AVTInput

open Bytes

structure RTPHeader where
  flags : Fin 64
  marker : Bool
  seqnr : UInt16
  timestamp : UInt32
  ssrc : UInt32

def RTPHeader.encode (h : RTPHeader) : List UInt8 :=
  [UInt8.ofNat (2 * 64 + h.flags), UInt8.ofNat (h.marker.toNat * 128 + 34)] ++ be16 h.seqnr ++
    be32 h.timestamp ++ be32 h.ssrc

/-- A frame with at least one stream. The fields that the decoder does not use hold any bits. -/
structure STIFrame where
  status : UInt8
  sync : Bool
  dfs : UInt16
  cfs : UInt16
  characterisation : UInt32
  flags : UInt8
  dfctl : Fin 250
  dfcth : Fin 20
  streamType : Fin 8
  identifierHigh : UInt8
  identifierLow : Fin 128
  others : List UInt32
  endOfHeader : UInt32
  payload : List UInt8
  crc : Option UInt16
  rest : List UInt8
  others_lt : others.length + 1 < 2 ^ 11
  stl_lt : payload.length + (crc.elim 0 fun _ => 2) < 2 ^ 13

namespace STIFrame

def nst (f : STIFrame) : ℕ := f.others.length + 1

def stl (f : STIFrame) : ℕ := f.payload.length + (f.crc.elim 0 fun _ => 2)

/-- The last byte of the first descriptor, with the CRC flag in bit 7. -/
def lastByte (f : STIFrame) : UInt8 := UInt8.ofNat (f.crc.isSome.toNat * 128 + f.identifierLow)

def start (f : STIFrame) : List UInt8 :=
  [f.status] ++ (if f.sync then stiFSync0 else stiFSync1) ++ be16 f.dfs ++ be16 f.cfs ++
    be32 f.characterisation ++ [f.flags, UInt8.ofNat f.dfctl] ++
    be16 (UInt16.ofNat (f.dfcth * 2 ^ 11 + f.nst)) ++
    be16 (UInt16.ofNat (f.streamType * 2 ^ 13 + f.stl)) ++ [f.identifierHigh, f.lastByte]

def header (f : STIFrame) : List UInt8 :=
  f.start ++ f.others.flatMap be32 ++ be32 f.endOfHeader

def encode (f : STIFrame) : List UInt8 :=
  f.header ++ f.payload ++ (f.crc.elim [] be16 ++ f.rest)

/-- The datagram with the frame, in memory with any bytes after it. -/
def datagram (f : STIFrame) (rtp : Option RTPHeader) (beyond : ℕ → UInt8) : Datagram :=
  ⟨rtp.elim [] RTPHeader.encode ++ f.encode, beyond⟩

/-- The code finds the frame with its number and exactly the payload of its first stream. -/
def Decodes (f : STIFrame) (rtp : Option RTPHeader) (beyond : ℕ → UInt8) (previousRtpIndex : ℤ) :
    Prop :=
  ∃ found next reads,
    Datagram.recorded ((f.datagram rtp beyond).findDABFrameFromUDP
        (f.datagram rtp beyond).bytes.length previousRtpIndex) = ((some found, next), reads) ∧
      found.frameNumber = f.dfcth * 250 + f.dfctl ∧ found.dataSize = f.payload.length ∧
      slice (f.datagram rtp beyond).bytes found.offset found.dataSize = f.payload

section Header

variable (f : STIFrame)

theorem length_start : f.start.length = 20 := by
  unfold start
  split <;> rfl

theorem length_flatMap_be32 (l : List UInt32) : (l.flatMap be32).length = 4 * l.length := by
  induction l with
  | nil => rfl
  | cons n l ih =>
    rw [List.flatMap_cons, List.length_append, ih, length_be32, List.length_cons]
    omega

theorem length_header : f.header.length = 16 + (f.nst * 4 + 4) := by
  unfold header nst
  rw [List.length_append, List.length_append, length_start, length_flatMap_be32, length_be32]
  omega

variable (rtp : Option RTPHeader) (beyond : ℕ → UInt8)

def base : ℕ := (rtp.elim [] RTPHeader.encode).length

theorem getD_append_add {v w : List UInt8} {k : ℕ} {b c : UInt8} (hk : k < w.length) :
    (v ++ w).getD (v.length + k) b = w.getD k c := by
  simp only [List.getD_eq_getElem?_getD, List.getElem?_append_right (Nat.le_add_right ..),
    Nat.add_sub_cancel_left, List.getElem?_eq_getElem hk, Option.getD_some]

theorem getD_append_left {v w : List UInt8} {k : ℕ} {b c : UInt8} (hk : k < v.length) :
    (v ++ w).getD k b = v.getD k c := by
  simp only [List.getD_eq_getElem?_getD, List.getElem?_append_left hk,
    List.getElem?_eq_getElem hk, Option.getD_some]

theorem byteAt_start {k : ℕ} (hk : k < 20) :
    (f.datagram rtp beyond).byteAt (base rtp + k) = f.start.getD k 0 := by
  have hstart : k < f.start.length := by rwa [length_start]
  have hencode : k < f.encode.length := by
    unfold encode
    rw [List.length_append, List.length_append, length_header]
    omega
  unfold Datagram.byteAt datagram base
  rw [getD_append_add (c := 0) hencode]
  unfold encode header
  rw [List.append_assoc, List.append_assoc, List.append_assoc]
  exact getD_append_left hstart

theorem stiAt_base : (f.datagram rtp beyond).stiAt (base rtp) = true := by
  unfold Datagram.stiAt
  rw [f.byteAt_start rtp beyond (k := 1) (by decide),
    f.byteAt_start rtp beyond (k := 2) (by decide),
    f.byteAt_start rtp beyond (k := 3) (by decide)]
  unfold start
  cases f.sync <;> rfl

theorem stiAt_rtp (h : RTPHeader) : (f.datagram (some h) beyond).stiAt 0 = false := by
  have hbyte : (f.datagram (some h) beyond).byteAt (0 + 1) =
      UInt8.ofNat (h.marker.toNat * 128 + 34) := rfl
  unfold Datagram.stiAt
  rw [hbyte]
  cases h.marker <;> simp [stiFSync0, stiFSync1]

theorem rtp_datagram (h : RTPHeader) : (f.datagram (some h) beyond).rtp = true := by
  have hversion (flags : Fin 64) : (UInt8.ofNat (2 * 64 + flags) &&& 0xC0) >>> 6 = 2 := by
    revert flags
    decide
  have htype (marker : Bool) : UInt8.ofNat (marker.toNat * 128 + 34) &&& 0x7F = 34 := by
    cases marker <;> rfl
  have hlength : 12 ≤ (f.datagram (some h) beyond).bytes.length := by
    unfold datagram
    rw [List.length_append]
    exact Nat.le_add_right 12 _
  have hbyte₀ : (f.datagram (some h) beyond).byteAt 0 = UInt8.ofNat (2 * 64 + h.flags) := rfl
  have hbyte₁ : (f.datagram (some h) beyond).byteAt 1 =
      UInt8.ofNat (h.marker.toNat * 128 + 34) := rfl
  unfold Datagram.rtp
  rw [hbyte₀, hbyte₁, hversion, htype, decide_eq_true hlength]
  rfl

theorem base?_datagram : (f.datagram rtp beyond).base? = some (base rtp) := by
  have hsti := f.stiAt_base rtp beyond
  unfold Datagram.base?
  cases rtp with
  | none => exact if_pos hsti
  | some h =>
    have hat : (f.datagram (some h) beyond).stiAt 12 = true := hsti
    simp only [stiAt_rtp, rtp_datagram, hat, Bool.false_eq_true, if_false, Bool.and_self, if_true]
    rfl

theorem field16_start {k : ℕ} {n : UInt16} (hk : k + 1 < 20)
    (h : [f.start.getD k 0, f.start.getD (k + 1) 0] = be16 n) :
    (f.datagram rtp beyond).field16 (base rtp + k) = n.toNat := by
  unfold Datagram.field16
  rw [Nat.add_assoc, f.byteAt_start rtp beyond (Nat.lt_of_succ_lt hk),
    f.byteAt_start rtp beyond hk, ← ofBE_be16, ← h]
  simp [ofBE]

theorem nst_datagram : (f.datagram rtp beyond).nst (base rtp) = f.nst := by
  have hnst : f.nst < 2 ^ 11 := f.others_lt
  have hfield : [f.start.getD 14 0, f.start.getD (14 + 1) 0] =
      be16 (UInt16.ofNat (f.dfcth * 2 ^ 11 + f.nst)) := by
    unfold start
    cases f.sync <;> rfl
  unfold Datagram.nst
  rw [f.field16_start rtp beyond (by decide) hfield, UInt16.toNat_ofNat']
  have hdfcth := f.dfcth.isLt
  omega

theorem stl_datagram : (f.datagram rtp beyond).stl (base rtp) = f.stl := by
  have hstl : f.stl < 2 ^ 13 := f.stl_lt
  have hfield : [f.start.getD 16 0, f.start.getD (16 + 1) 0] =
      be16 (UInt16.ofNat (f.streamType * 2 ^ 13 + f.stl)) := by
    unfold start
    cases f.sync <;> rfl
  unfold Datagram.stl
  rw [f.field16_start rtp beyond (by decide) hfield, UInt16.toNat_ofNat']
  have htype := f.streamType.isLt
  omega

theorem crcstf_datagram : (f.datagram rtp beyond).crcstf (base rtp) = f.identifierLow % 2 := by
  have hbyte : f.start.getD 19 0 = f.lastByte := by
    unfold start
    cases f.sync <;> rfl
  unfold Datagram.crcstf
  rw [f.byteAt_start rtp beyond (by decide), hbyte, lastByte, UInt8.toNat_ofNat']
  have hlow := f.identifierLow.isLt
  omega

theorem frameNumber_datagram :
    ((f.datagram rtp beyond).found (base rtp)).frameNumber = f.dfcth * 250 + f.dfctl := by
  have hnst : f.nst < 2 ^ 11 := f.others_lt
  have hlow : f.start.getD 13 0 = UInt8.ofNat f.dfctl := by
    unfold start
    cases f.sync <;> rfl
  have hhigh : f.start.getD 14 0 =
      (UInt16.ofNat (f.dfcth * 2 ^ 11 + f.nst) >>> 8).toUInt8 := by
    unfold start
    cases f.sync <;> rfl
  unfold Datagram.found
  dsimp only
  rw [f.byteAt_start rtp beyond (by decide), f.byteAt_start rtp beyond (by decide), hlow, hhigh]
  have hdfctl := f.dfctl.isLt
  have hdfcth := f.dfcth.isLt
  simp only [UInt16.toNat_toUInt8, UInt16.toNat_shiftRight, UInt16.toNat_ofNat',
    UInt8.toNat_ofNat', Nat.shiftRight_eq_div_pow]
  rw [show (8 : UInt16).toNat % 16 = 8 from rfl]
  omega

theorem slice_payload :
    slice (f.datagram rtp beyond).bytes ((f.datagram rtp beyond).found (base rtp)).offset
      f.payload.length = f.payload := by
  have hoffset : ((f.datagram rtp beyond).found (base rtp)).offset =
      (rtp.elim [] RTPHeader.encode ++ f.header).length := by
    unfold Datagram.found
    dsimp only
    rw [nst_datagram, List.length_append, length_header, base]
  have hbytes : (f.datagram rtp beyond).bytes =
      (rtp.elim [] RTPHeader.encode ++ f.header) ++
        (f.payload ++ (f.crc.elim [] be16 ++ f.rest)) := by
    unfold datagram encode
    simp only [List.append_assoc]
  rw [hoffset, hbytes, slice_append_right le_rfl, Nat.sub_self, slice_append_left (by omega),
    slice_self rfl]

/-- The size is that of the payload if the two bits are the same. -/
theorem dataSize_datagram :
    ((f.datagram rtp beyond).found (base rtp)).dataSize = f.payload.length ↔
      (f.identifierLow : ℕ) % 2 = f.crc.isSome.toNat := by
  have hstl := f.stl_lt
  unfold Datagram.found
  dsimp only
  rw [stl_datagram, crcstf_datagram, stl]
  cases hcrc : f.crc with
  | none =>
    rw [hcrc] at hstl
    simp only [Option.elim_none, Option.isSome_none, Bool.toNat_false] at *
    omega
  | some crc =>
    rw [hcrc] at hstl
    simp only [Option.elim_some, Option.isSome_some, Bool.toNat_true] at *
    omega

end Header

/-- The decoder recovers the payload exactly if bit 0 of the last byte of the first descriptor is
the same as its bit 7, which is the CRC flag. -/
theorem decodes_iff (f : STIFrame) (rtp : Option RTPHeader) (beyond : ℕ → UInt8)
    (previousRtpIndex : ℤ) :
    f.Decodes rtp beyond previousRtpIndex ↔
      (f.identifierLow : ℕ) % 2 = f.crc.isSome.toNat := by
  obtain ⟨next, reads, hfind, -⟩ :=
    (f.datagram rtp beyond).findDABFrameFromUDP_apply previousRtpIndex []
  have hnst : 1 ≤ (f.datagram rtp beyond).nst (base rtp) := by
    rw [nst_datagram]
    exact Nat.le_add_left 1 _
  rw [base?_datagram, Option.bind_some, if_pos hnst] at hfind
  rw [← f.dataSize_datagram rtp beyond]
  unfold Decodes Datagram.recorded
  rw [hfind]
  constructor
  · rintro ⟨found, next', reads', heq, -, hsize, -⟩
    obtain rfl := Option.some.inj (Prod.mk.inj (Prod.mk.inj heq).1).1
    exact hsize
  · intro hsize
    refine ⟨_, _, _, rfl, f.frameNumber_datagram rtp beyond, hsize, ?_⟩
    rw [hsize]
    exact f.slice_payload rtp beyond

def checkedFrame : STIFrame where
  status := 0xFF
  sync := true
  dfs := 0
  cfs := 0
  characterisation := 0
  flags := 0
  dfctl := 5
  dfcth := 0
  streamType := 0
  identifierHigh := 0
  identifierLow := 0
  others := []
  endOfHeader := 0
  payload := List.replicate 24 7
  crc := some 0xABCD
  rest := []
  others_lt := by decide
  stl_lt := by decide

/-- The CRC bytes are taken for payload. -/
theorem checkedFrame_not_decodes : ¬ checkedFrame.Decodes none (fun _ => 0) (-1) := by
  rintro ⟨found, next, reads, hfind, -, hsize, -⟩
  have hfound : Datagram.recorded ((checkedFrame.datagram none fun _ => 0).findDABFrameFromUDP
      (checkedFrame.datagram none fun _ => 0).bytes.length (-1)) =
        ((some ⟨24, 26, 5⟩, -1), [1, 2, 3, 13, 14, 14, 15, 16, 17, 19]) := by decide
  rw [hfound] at hfind
  obtain rfl := Option.some.inj (Prod.mk.inj (Prod.mk.inj hfind).1).1
  exact absurd hsize (by decide)

end STIFrame

end SourceCompanion.AVTInput
