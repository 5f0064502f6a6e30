import Mathlib.Data.List.Basic
import SourceCompanion.Bytes.BigEndian

/-! # Finding the frame in a datagram

The encoder sends STI datagrams, with or without an RTP header. The position of the frame
follows from the number of streams in the datagram, its size from the length of the first
stream. Reading goes through raw memory, so every position that is read is recorded.
-/

namespace SourceCompanion.AVTInput

open Bytes

def maxAVTFrameSize : ℕ := 1500

def stiFSync0 : List UInt8 := [0x1F, 0x90, 0xCA]
def stiFSync1 : List UInt8 := [0xE0, 0x6F, 0x35]

/-- The bytes received of a datagram, and what the memory holds after them. -/
structure Datagram where
  bytes : List UInt8
  beyond : ℕ → UInt8

namespace Datagram

/-- What the socket hands out of a datagram: a longer one is cut off. -/
def receive (sent : List UInt8) (beyond : ℕ → UInt8) : Datagram :=
  ⟨sent.take maxAVTFrameSize, beyond⟩

def byteAt (d : Datagram) (i : ℕ) : UInt8 := d.bytes.getD i (d.beyond i)

abbrev ReadM := StateM (List ℕ)

def read (d : Datagram) (i : ℕ) : ReadM UInt8 := fun positions => (d.byteAt i, positions ++ [i])

def unpack2 (d : Datagram) (i : ℕ) : ReadM UInt32 := do
  let high ← d.read i
  let low ← d.read (i + 1)
  return (high.toUInt32 <<< 8) ||| low.toUInt32

/-- Test bytes 1, 2 and 3 for the STI synchronisation. -/
def isSTI (d : Datagram) (index : ℕ) : ReadM Bool := do
  let b₁ ← d.read (index + 1)
  let b₂ ← d.read (index + 2)
  let b₃ ← d.read (index + 3)
  return [b₁, b₂, b₃] = stiFSync0 || [b₁, b₂, b₃] = stiFSync1

/-- A frame found in a datagram: where it starts, its size and its number. -/
structure Found where
  offset : ℕ
  dataSize : ℕ
  frameNumber : ℕ
  deriving DecidableEq, Repr

/-- Where the STI header starts, if there is one, and the RTP sequence number last seen. -/
def findSTI (d : Datagram) (size : ℕ) (previousRtpIndex : ℤ) : ReadM (Option ℕ × ℤ) := do
  if ← d.isSTI 0 then return (some 0, previousRtpIndex)
  -- The RTP header is optional, STI is mandatory.
  if size ≥ 12 then
    let version := ((← d.read 0) &&& 0xC0) >>> 6
    let payloadType := (← d.read 1) &&& 0x7F
    if version = 2 ∧ payloadType = 34 then
      let seqnr := ((← d.read 2).toUInt16 <<< 8) ||| (← d.read 3).toUInt16
      if ← d.isSTI 12 then return (some 12, seqnr.toNat)
      return (none, seqnr.toNat)
  return (none, previousRtpIndex)

def findDABFrameFromUDP (d : Datagram) (size : ℕ) (previousRtpIndex : ℤ) :
    ReadM (Option Found × ℤ) := do
  let (sti, previousRtpIndex) ← d.findSTI size previousRtpIndex
  match sti with
  | none => return (none, previousRtpIndex)
  | some index =>
    let index := index + 4 + 2 + 2 + 5
    let dfctl := (← d.read index).toUInt32
    let index := index + 1
    let dfcth := (← d.read index).toUInt32 >>> 3
    let nst := (← d.unpack2 index) &&& 0x7FF
    let index := index + 2
    if nst ≥ 1 then
      let stl := (← d.unpack2 index) &&& 0x1FFF
      -- The shift binds tighter than the mask.
      let crcstf := (← d.read (index + 3)).toUInt32 &&& ((0x80 : UInt32) >>> 7)
      let index := index + (nst.toNat * 4 + 4)
      return (some {
        offset := index
        dataSize := (stl - 2 * crcstf).toNat
        frameNumber := (dfcth * 250 + dfctl).toNat }, previousRtpIndex)
    else return (none, previousRtpIndex)

/-- The frame of a received datagram that is pushed into the queue, if it has one of the
configured size. -/
def frameToPush (d : Datagram) (dab24msFrameSize : ℕ) (previousRtpIndex : ℤ) :
    ReadM (Option Found × ℤ) := do
  if d.bytes.length > dab24msFrameSize then
    let (found, previousRtpIndex) ← d.findDABFrameFromUDP d.bytes.length previousRtpIndex
    match found with
    | some frame =>
      if frame.dataSize = dab24msFrameSize then return (some frame, previousRtpIndex)
      else return (none, previousRtpIndex)
    | none => return (none, previousRtpIndex)
  else return (none, previousRtpIndex)

def recorded {α : Type} (m : ReadM α) : α × List ℕ := m []

section Fields

variable (d : Datagram)

def field16 (i : ℕ) : ℕ := (d.byteAt i).toNat * 256 + (d.byteAt (i + 1)).toNat

def stiAt (index : ℕ) : Bool :=
  let sync := [d.byteAt (index + 1), d.byteAt (index + 2), d.byteAt (index + 3)]
  sync = stiFSync0 || sync = stiFSync1

def rtp : Bool :=
  12 ≤ d.bytes.length && (d.byteAt 0 &&& 0xC0) >>> 6 = 2 && d.byteAt 1 &&& 0x7F = 34

def base? : Option ℕ :=
  if d.stiAt 0 then some 0 else if d.rtp && d.stiAt 12 then some 12 else none

/-- The number of streams, and the length and the CRC flag of the first one. -/
def nst (base : ℕ) : ℕ := d.field16 (base + 14) % 2 ^ 11

def stl (base : ℕ) : ℕ := d.field16 (base + 16) % 2 ^ 13

def crcstf (base : ℕ) : ℕ := (d.byteAt (base + 19)).toNat % 2

/-- The datagram passes the tests of the code for a frame size. -/
structure Accepted (dab24msFrameSize base : ℕ) : Prop where
  length_lt : dab24msFrameSize < d.bytes.length
  base_eq : d.base? = some base
  nst_pos : 1 ≤ d.nst base
  stl_eq : d.stl base = dab24msFrameSize + 2 * d.crcstf base

end Fields

section Spec

variable {d : Datagram}

theorem bind_apply {α β : Type} (m : ReadM α) (f : α → ReadM β) (log : List ℕ) :
    (m >>= f) log = f (m log).1 (m log).2 := rfl

theorem pure_apply {α : Type} (a : α) (log : List ℕ) : (pure a : ReadM α) log = (a, log) := rfl

theorem read_apply (i : ℕ) (log : List ℕ) : d.read i log = (d.byteAt i, log ++ [i]) := rfl

theorem isSTI_apply (index : ℕ) (log : List ℕ) :
    d.isSTI index log = (d.stiAt index, log ++ [index + 1, index + 2, index + 3]) := by
  simp only [isSTI, bind_apply, pure_apply, read_apply, List.append_assoc]
  rfl

theorem unpack2_apply (i : ℕ) (log : List ℕ) :
    d.unpack2 i log =
      (((d.byteAt i).toUInt32 <<< 8) ||| (d.byteAt (i + 1)).toUInt32, log ++ [i, i + 1]) := by
  simp only [unpack2, bind_apply, pure_apply, read_apply, List.append_assoc]
  rfl

theorem findSTI_apply (previousRtpIndex : ℤ) (log : List ℕ) :
    ∃ next reads, d.findSTI d.bytes.length previousRtpIndex log = ((d.base?, next), log ++ reads) ∧
      ∀ base ∈ d.base?, ∀ i ∈ reads, i < base + 20 := by
  simp only [findSTI, bind_apply, isSTI_apply, base?, rtp]
  by_cases h : d.stiAt 0
  · simp only [h, if_true]
    exact ⟨_, _, rfl, by simp⟩
  simp only [h, Bool.false_eq_true, if_false]
  by_cases hlen : d.bytes.length ≥ 12
  · by_cases hrtp : (d.byteAt 0 &&& 0xC0) >>> 6 = 2 ∧ d.byteAt 1 &&& 0x7F = 34
    · obtain ⟨hversion, htype⟩ := hrtp
      simp only [hlen, if_true, bind_apply, read_apply, hversion, htype, and_self,
        isSTI_apply, List.append_assoc, decide_true, Bool.true_and]
      by_cases hsti : d.stiAt 12
      · simp only [hsti, if_true]
        exact ⟨_, _, rfl, by simp⟩
      · simp only [hsti, Bool.false_eq_true, if_false]
        exact ⟨_, _, rfl, by simp⟩
    · simp only [hlen, if_true, bind_apply, read_apply, if_neg hrtp, List.append_assoc,
        decide_true, Bool.true_and, ← Bool.decide_and, decide_eq_false hrtp, Bool.false_and,
        Bool.false_eq_true, if_false]
      exact ⟨_, _, rfl, by simp⟩
  · simp only [hlen, if_false, decide_false, Bool.false_and, Bool.false_eq_true]
    exact ⟨_, _, rfl, by simp⟩

theorem toNat_field (i : ℕ) :
    (((d.byteAt i).toUInt32 <<< 8) ||| (d.byteAt (i + 1)).toUInt32).toNat = d.field16 i := by
  have h₀ := (d.byteAt i).toNat_lt
  have h₁ := (d.byteAt (i + 1)).toNat_lt
  have hshift : (d.byteAt i).toNat <<< 8 % 2 ^ 32 = (d.byteAt i).toNat * 2 ^ 8 := by
    rw [Nat.shiftLeft_eq]
    omega
  simp only [UInt32.toNat_or, UInt32.toNat_shiftLeft, UInt8.toNat_toUInt32]
  rw [show ((8 : UInt32).toNat % 32) = 8 from rfl, hshift, Nat.or_comm, or_mul_two_pow h₁, field16]
  omega

/-- The frame that the fields describe, the subtraction being one of 32-bit numbers. -/
def found (d : Datagram) (base : ℕ) : Found where
  offset := base + (16 + (d.nst base * 4 + 4))
  dataSize := (2 ^ 32 + d.stl base - 2 * d.crcstf base) % 2 ^ 32
  frameNumber := (d.byteAt (base + 14)).toNat / 8 * 250 + (d.byteAt (base + 13)).toNat

theorem toNat_dataSize {x : UInt32} {b : UInt8} {stl : ℕ} (hx : x.toNat = stl) :
    (x - (2 : UInt32) * (b.toUInt32 &&& ((0x80 : UInt32) >>> 7))).toNat =
      (2 ^ 32 + stl - 2 * (b.toNat % 2)) % 2 ^ 32 := by
  have hb : (b.toUInt32 &&& ((0x80 : UInt32) >>> 7)).toNat = b.toNat % 2 := by
    rw [toNat_mask (n := 1) _ _ rfl, UInt8.toNat_toUInt32, pow_one]
  rw [UInt32.toNat_sub, UInt32.toNat_mul, hb, hx, show (2 : UInt32).toNat = 2 from rfl]
  omega

theorem toNat_frameNumber (h l : UInt8) :
    ((h.toUInt32 >>> 3) * 250 + l.toUInt32).toNat = h.toNat / 8 * 250 + l.toNat := by
  have hh := h.toNat_lt
  have hl := l.toNat_lt
  simp only [UInt32.toNat_add, UInt32.toNat_mul, UInt32.toNat_shiftRight, UInt8.toNat_toUInt32]
  rw [show (3 : UInt32).toNat % 32 = 3 from rfl, show (250 : UInt32).toNat = 250 from rfl,
    Nat.shiftRight_eq_div_pow]
  omega

theorem findDABFrameFromUDP_apply (previousRtpIndex : ℤ) (log : List ℕ) :
    ∃ next reads, d.findDABFrameFromUDP d.bytes.length previousRtpIndex log =
        ((d.base?.bind fun base => if 1 ≤ d.nst base then some (d.found base) else none, next),
          log ++ reads) ∧
      ∀ base ∈ d.base?, ∀ i ∈ reads, i < base + 20 := by
  obtain ⟨next, reads, hsti, hreads⟩ := d.findSTI_apply previousRtpIndex log
  simp only [findDABFrameFromUDP, bind_apply, hsti]
  cases hbase : d.base? with
  | none => exact ⟨next, reads, rfl, by simp⟩
  | some base =>
    have hread (more : List ℕ) (hmore : ∀ i ∈ more, i < base + 20) :
        ∀ base' ∈ some base, ∀ i ∈ reads ++ more, i < base' + 20 := by
      rintro _ ⟨⟩
      exact List.forall_mem_append.mpr ⟨hreads base hbase, hmore⟩
    simp only [bind_apply, read_apply, unpack2_apply, List.append_assoc, Nat.add_assoc,
      Nat.reduceAdd]
    have hnst := toNat_mask (((d.byteAt (base + 14)).toUInt32 <<< 8) |||
      (d.byteAt (base + 15)).toUInt32) (n := 11) 0x7FF rfl
    rw [toNat_field] at hnst
    by_cases h : 1 ≤ d.nst base
    · have hge : (((d.byteAt (base + 14)).toUInt32 <<< 8) |||
          (d.byteAt (base + 15)).toUInt32) &&& 0x7FF ≥ 1 := by
        rw [ge_iff_le, UInt32.le_iff_toNat_le, hnst]
        exact h
      have hstl := toNat_mask (((d.byteAt (base + 16)).toUInt32 <<< 8) |||
        (d.byteAt (base + 17)).toUInt32) (n := 13) 0x1FFF rfl
      rw [toNat_field] at hstl
      simp only [hge, if_true, bind_apply, unpack2_apply, read_apply, pure_apply,
        List.append_assoc, Nat.add_assoc, Nat.reduceAdd, Option.bind_some, h, hnst,
        toNat_dataSize hstl, toNat_frameNumber]
      exact ⟨next, _, rfl, hread _ (by simp)⟩
    · have hlt : ¬ (((d.byteAt (base + 14)).toUInt32 <<< 8) |||
          (d.byteAt (base + 15)).toUInt32) &&& 0x7FF ≥ 1 := by
        rw [ge_iff_le, UInt32.le_iff_toNat_le, hnst]
        exact h
      simp only [hlt, if_false, pure_apply, Option.bind_some, h]
      exact ⟨next, _, rfl, hread _ (by simp)⟩

theorem dataSize_found_eq_iff {frameSize base : ℕ} (hsize : frameSize < 2 ^ 31) :
    (d.found base).dataSize = frameSize ↔ d.stl base = frameSize + 2 * d.crcstf base := by
  have hstl : d.stl base < 2 ^ 13 := Nat.mod_lt _ (by decide)
  have hcrc : d.crcstf base < 2 := Nat.mod_lt _ (by decide)
  simp only [found]
  omega

/-- A pushed frame is one that the fields of an accepted datagram describe. -/
theorem frameToPush_apply {frameSize : ℕ} (hsize : frameSize < 2 ^ 31) (previousRtpIndex : ℤ) :
    ∃ found next reads,
      recorded (d.frameToPush frameSize previousRtpIndex) = ((found, next), reads) ∧
      (∀ frame, found = some frame ↔ ∃ base, d.Accepted frameSize base ∧ frame = d.found base) ∧
      ∀ base ∈ d.base?, ∀ i ∈ reads, i < base + 20 := by
  by_cases hlt : d.bytes.length > frameSize
  · obtain ⟨next, reads, hfind, hreads⟩ := d.findDABFrameFromUDP_apply previousRtpIndex []
    simp only [recorded, frameToPush, if_pos hlt, bind_apply, hfind]
    cases hbase : d.base? with
    | none =>
      refine ⟨none, next, reads, rfl, fun frame => ?_, by simp⟩
      constructor
      · rintro ⟨⟩
      · rintro ⟨base, hacc, -⟩
        cases hbase.symm.trans hacc.base_eq
    | some base =>
      rw [hbase] at hreads
      have hunique (base' : ℕ) (h : d.Accepted frameSize base') : base' = base :=
        Option.some.inj (h.base_eq.symm.trans hbase)
      by_cases hnst : 1 ≤ d.nst base
      · by_cases hdata : (d.found base).dataSize = frameSize
        · simp only [Option.bind_some, if_pos hnst, if_pos hdata]
          refine ⟨some (d.found base), next, reads, rfl, fun frame => ?_, hreads⟩
          constructor
          · rintro ⟨⟩
            exact ⟨base, ⟨hlt, hbase, hnst, (dataSize_found_eq_iff hsize).mp hdata⟩, rfl⟩
          · rintro ⟨base', hacc, rfl⟩
            rw [hunique base' hacc]
        · simp only [Option.bind_some, if_pos hnst, if_neg hdata]
          refine ⟨none, next, reads, rfl, fun frame => ?_, hreads⟩
          constructor
          · rintro ⟨⟩
          · rintro ⟨base', hacc, -⟩
            have hstl := hacc.stl_eq
            rw [hunique base' hacc] at hstl
            exact absurd ((dataSize_found_eq_iff hsize).mpr hstl) hdata
      · simp only [Option.bind_some, if_neg hnst]
        refine ⟨none, next, reads, rfl, fun frame => ?_, hreads⟩
        constructor
        · rintro ⟨⟩
        · rintro ⟨base', hacc, -⟩
          exact absurd (hunique base' hacc ▸ hacc.nst_pos) hnst
  · refine ⟨none, previousRtpIndex, [], by rw [recorded, frameToPush, if_neg hlt]; rfl,
      fun frame => ?_, by simp⟩
    constructor
    · rintro ⟨⟩
    · rintro ⟨base, hacc, -⟩
      exact absurd hacc.length_lt hlt

end Spec

/-- Every byte that was read or is copied for a frame was received, and the size of the frame
is the difference of the fields. -/
structure InBounds (d : Datagram) (frame : Found) (reads : List ℕ) : Prop where
  header : ∀ i ∈ reads, i < d.bytes.length
  payload : frame.offset + frame.dataSize ≤ d.bytes.length
  size : ∀ base ∈ d.base?, frame.dataSize + 2 * d.crcstf base = d.stl base

end Datagram

open Datagram

/-- The frame size that a bitrate configures, if it is a bitrate for DAB+. -/
def configuredFrameSize (bitrate : ℕ) : Option ℕ :=
  let subChannelIndex := bitrate / 8
  if subChannelIndex * 8 ≠ bitrate ∨ subChannelIndex < 1 ∨ subChannelIndex > 24 then none
  else some (bitrate * 3)

/-- What is read and copied of a datagram stays inside it exactly when a datagram that the
code accepts is as long as its headers and the frame. -/
theorem inBounds_iff {bitrate frameSize : ℕ} (hsize : configuredFrameSize bitrate = some frameSize)
    (sent : List UInt8) (beyond : ℕ → UInt8) (previousRtpIndex : ℤ) :
    (∀ frame next reads,
      recorded ((receive sent beyond).frameToPush frameSize previousRtpIndex) =
        ((some frame, next), reads) → (receive sent beyond).InBounds frame reads) ↔
      ∀ base, (receive sent beyond).Accepted frameSize base →
        base + 20 + 4 * (receive sent beyond).nst base + frameSize ≤
          (receive sent beyond).bytes.length := by
  have hlt : frameSize < 2 ^ 31 := by
    simp only [configuredFrameSize] at hsize
    split at hsize
    · cases hsize
    · obtain rfl := Option.some.inj hsize
      omega
  generalize receive sent beyond = d
  obtain ⟨found, next, reads, hrec, hfound, hreads⟩ := d.frameToPush_apply hlt previousRtpIndex
  rw [hrec]
  constructor
  · intro h base hacc
    have hpay := (h (d.found base) next reads
      (by rw [(hfound _).mpr ⟨base, hacc, rfl⟩])).payload
    rw [(dataSize_found_eq_iff hlt).mpr hacc.stl_eq] at hpay
    simp only [Datagram.found] at hpay
    omega
  · rintro h frame next' reads' ⟨⟩
    obtain ⟨base, hacc, rfl⟩ := (hfound frame).mp rfl
    have hlen := h base hacc
    have hdata := (dataSize_found_eq_iff hlt).mpr hacc.stl_eq
    refine ⟨fun i hi => ?_, ?_, fun base' hbase => ?_⟩
    · have := hreads base hacc.base_eq i hi
      omega
    · rw [hdata]
      simp only [Datagram.found]
      omega
    · obtain rfl := Option.some.inj (hacc.base_eq.symm.trans hbase)
      rw [hdata, hacc.stl_eq]

def shortDatagram : List UInt8 :=
  [0, 0x1F, 0x90, 0xCA, 0, 0, 0, 0, 0, 0, 0, 0, 0, 5, 0, 1, 0, 24, 0, 0, 0, 0, 0, 0, 0]

theorem shortDatagram_not_inBounds :
    configuredFrameSize 8 = some 24 ∧
      ∃ frame next reads,
        recorded ((receive shortDatagram fun _ => 0).frameToPush 24 (-1)) =
          ((some frame, next), reads) ∧
        ¬ (receive shortDatagram fun _ => 0).InBounds frame reads := by
  refine ⟨rfl, ⟨24, 24, 5⟩, -1, [1, 2, 3, 13, 14, 14, 15, 16, 17, 19], by decide, fun h => ?_⟩
  exact absurd h.payload (by decide)

theorem inBounds_of_whole_frame :
    (∀ frame next reads,
      recorded ((receive (shortDatagram ++ List.replicate 23 7) fun _ => 0).frameToPush 24 (-1)) =
        ((some frame, next), reads) →
        (receive (shortDatagram ++ List.replicate 23 7) fun _ => 0).InBounds frame reads) ↔
      ∀ base, (receive (shortDatagram ++ List.replicate 23 7) fun _ => 0).Accepted 24 base →
        base + 20 + 4 * (receive (shortDatagram ++ List.replicate 23 7) fun _ => 0).nst base + 24 ≤
          (receive (shortDatagram ++ List.replicate 23 7) fun _ => 0).bytes.length :=
  inBounds_iff (show configuredFrameSize 8 = some 24 from rfl) _ _ _

end SourceCompanion.AVTInput
