import Mathlib.Tactic.Ring
import SourceCompanion.Bytes.BigEndian
import SourceCompanion.Edi.Crc
import SourceCompanion.Interleave.Basic

/-! # Protection and fragmentation

An AF packet is cut into chunks that each get 48 parity bytes, and the resulting block is
interleaved over the fragments. Without protection the packet is only cut. Each fragment
carries a header with its place in the packet and the checksum of that header.
-/

namespace SourceCompanion.Edi

open Bytes Interleave

structure Configuration where
  chunkLen : UInt32 := 207
  fec : UInt32 := 0
  enablePft : Bool := false
  tagpacketAlignment : UInt32 := 0
  deriving DecidableEq, Repr

/-- The ways a call ends without a result: a zero divisor stops the process, the others
are the exceptions of the source. -/
inductive PFTError where
  | divisionByZero
  | outOfRange (what : String)
  | runtimeError (what : String)
  deriving DecidableEq, Repr

structure PFT where
  k : UInt32 := 207
  m : UInt32 := 3
  pseq : UInt16 := 0
  numChunks : ℕ := 0
  deriving DecidableEq, Repr

def parityBytes : ℕ := 48

/-- The transport header is always deactivated. -/
def transportHeader : Bool := false
def addrSource : UInt16 := 0
def destPort : UInt32 := 0

def ceilDiv (a b : ℕ) : Except PFTError ℕ :=
  if b = 0 then .error .divisionByZero
  else .ok (if a % b = 0 then a / b else a / b + 1)

namespace PFT

def enableRS (pft : PFT) : Bool := pft.m > 0

def ofConfiguration (conf : Configuration) : Except PFTError PFT :=
  if conf.chunkLen > 207 then .error (.outOfRange "EDI PFT Chunk size too large.")
  else .ok { k := conf.chunkLen, m := conf.fec, pseq := 0, numChunks := 0 }

section

-- The parity bytes of a chunk padded to 207 bytes.
variable (encode : List UInt8 → Vector UInt8 parityBytes)

/-- Each chunk followed by its parity bytes. -/
def rsBlock (chunkLen : ℕ) (afPacket : List UInt8) : List UInt8 :=
  (pieces (afPacket.length ⌈/⌉ chunkLen) chunkLen afPacket).flatMap fun chunk =>
    chunk ++ (encode (chunk ++ List.replicate (207 - chunk.length) 0)).toList

/-- Apply Reed-Solomon protection to the AF packet, zero padded to whole chunks. -/
def protect (pft : PFT) (afPacket : List UInt8) : Except PFTError (List UInt8 × PFT) := do
  let numChunks ← ceilDiv afPacket.length pft.k.toNat
  let chunkLen ← ceilDiv afPacket.length numChunks
  if chunkLen > 207 then
    .error (.runtimeError s!"Chunk length {chunkLen} too large (>207)")
  else
    let zeroPad := numChunks * chunkLen - afPacket.length
    .ok (rsBlock encode chunkLen (afPacket ++ List.replicate zeroPad 0), { pft with numChunks })

/-- Cut the protected block, or the bare packet, into fragment payloads. -/
def protectAndFragment (pft : PFT) (afPacket : List UInt8) :
    Except PFTError (List (List UInt8) × PFT) :=
  if pft.enableRS then do
    let (block, pft) ← protect encode pft afPacket
    -- `m_m + 1` is an `unsigned int` and may wrap to zero.
    let divisor := (pft.m + 1).toNat
    if divisor = 0 then .error .divisionByZero
    else
      let maxPayloadSize := pft.numChunks * parityBytes / divisor
      let numFragments ← ceilDiv block.length maxPayloadSize
      let fragmentSize ← ceilDiv block.length numFragments
      .ok ((List.range numFragments).map fun i =>
        (List.range fragmentSize).map fun j => block.getD (j * numFragments + i) 0, pft)
  else do
    let maxPayloadSize := 1400
    let numFragments ← ceilDiv afPacket.length maxPayloadSize
    let fragmentSize ← ceilDiv afPacket.length numFragments
    .ok (pieces numFragments fragmentSize afPacket, pft)

end

def header (pft : PFT) (findex fcount size chunkLen zeroPad : ℕ) : List UInt8 :=
  let plen : UInt32 := UInt32.ofNat size ||| (if pft.enableRS then 0x8000 else 0) |||
    (if transportHeader then 0x4000 else 0)
  ascii ['P', 'F'] ++ be16 pft.pseq ++ be24 (UInt32.ofNat findex) ++ be24 (UInt32.ofNat fcount) ++
    [(plen >>> 8).toUInt8, plen.toUInt8] ++
    (if pft.enableRS then [UInt8.ofNat chunkLen, UInt8.ofNat zeroPad] else []) ++
    (if transportHeader then be16 addrSource ++ [(destPort >>> 8).toUInt8, destPort.toUInt8]
      else [])

def pftFragment (header payload : List UInt8) : List UInt8 :=
  header ++ be16 (checksum header) ++ payload

section

variable (encode : List UInt8 → Vector UInt8 parityBytes)

/-- The fragments of an AF packet with their headers, and the state after the call. -/
def assembleFragments (pft : PFT) (afPacket : List UInt8) :
    Except PFTError (List (List UInt8) × PFT) := do
  let (fragments, pft) ← protectAndFragment encode pft afPacket
  let chunkLen ← if pft.enableRS then ceilDiv afPacket.length pft.numChunks else .ok 0
  let zeroPad := if pft.enableRS then pft.numChunks * chunkLen - afPacket.length else 0
  .ok (fragments.zipIdx.map fun (payload, findex) =>
      pftFragment (pft.header findex fragments.length payload.length chunkLen zeroPad) payload,
    { pft with pseq := pft.pseq + 1 })

/-- One call of `Assemble`. A failed call leaves at most `m_num_chunks` behind, which the
next call overwrites before it reads it, so the state is kept. -/
def assemble (pft : PFT) (afPacket : List UInt8) :
    Except PFTError (List (List UInt8)) × PFT :=
  match assembleFragments encode pft afPacket with
  | .ok (fragments, pft) => (.ok fragments, pft)
  | .error e => (.error e, pft)

end

theorem ceilDiv_of_pos {a b : ℕ} (hb : 0 < b) : ceilDiv a b = .ok (a ⌈/⌉ b) := by
  have hd := Nat.div_add_mod a b
  have hlt := Nat.mod_lt a hb
  rw [ceilDiv, if_neg hb.ne', Nat.ceilDiv_eq_add_pred_div]
  congr 1
  split
  · rename_i h
    rw [h, Nat.add_zero] at hd
    exact (Nat.div_eq_of_lt_le (by rw [Nat.mul_comm, hd]; omega)
      (by rw [Nat.succ_mul, Nat.mul_comm, hd]; omega)).symm
  · exact (Nat.div_eq_of_lt_le (by rw [Nat.succ_mul, Nat.mul_comm]; omega)
      (by rw [Nat.succ_mul, Nat.succ_mul, Nat.mul_comm]; omega)).symm

/-- Chunks of 1 to 207 bytes, and fewer fragments to recover than a chunk has parity bytes. -/
structure Valid (pft : PFT) : Prop where
  k_pos : 0 < pft.k.toNat
  k_le : pft.k.toNat ≤ 207
  m_le : pft.m.toNat ≤ 47

theorem Valid.of_configuration {conf : Configuration} {pft : PFT}
    (h : ofConfiguration conf = .ok pft) (hk : 1 ≤ conf.chunkLen) (hm : conf.fec ≤ 47) :
    pft.Valid ∧ pft.pseq = 0 := by
  unfold ofConfiguration at h
  split at h
  · cases h
  · obtain rfl := Except.ok.inj h
    exact ⟨⟨hk, UInt32.not_lt.mp ‹_›, hm⟩, rfl⟩

section Spec

variable {encode : List UInt8 → Vector UInt8 parityBytes} {pft : PFT} {af : List UInt8}

theorem enableRS_eq_false_iff : pft.enableRS = false ↔ pft.m.toNat = 0 := by
  simp [enableRS, UInt32.lt_iff_toNat_lt]

/-- The number of chunks of a packet, the length of each and the padding of the last. -/
def chunkCount (pft : PFT) (af : List UInt8) : ℕ := partCount af.length pft.k.toNat

def chunkLen (pft : PFT) (af : List UInt8) : ℕ := partSize af.length pft.k.toNat

def zeroPad (pft : PFT) (af : List UInt8) : ℕ := partPad af.length pft.k.toNat

def padded (pft : PFT) (af : List UInt8) : List UInt8 := af ++ List.replicate (pft.zeroPad af) 0

theorem length_padded_of_pos (hk : 0 < pft.k.toNat) (hne : af ≠ []) :
    (pft.padded af).length = pft.chunkCount af * pft.chunkLen af := by
  have hle : af.length ≤ pft.chunkCount af * pft.chunkLen af :=
    le_parts (List.length_pos_iff.mpr hne) hk
  have hpad : pft.zeroPad af = pft.chunkCount af * pft.chunkLen af - af.length := rfl
  rw [padded, List.length_append, List.length_replicate]
  omega

theorem length_padded (hv : pft.Valid) (hne : af ≠ []) :
    (pft.padded af).length = pft.chunkCount af * pft.chunkLen af :=
  length_padded_of_pos hv.k_pos hne

def protectedChunk (encode : List UInt8 → Vector UInt8 parityBytes) (size : ℕ)
    (packet : List UInt8) (q : ℕ) : List UInt8 :=
  let chunk := (packet.drop (q * size)).take size
  chunk ++ (encode (chunk ++ List.replicate (207 - chunk.length) 0)).toList

theorem length_protectedChunk {count size q : ℕ} {packet : List UInt8}
    (hlen : packet.length = count * size) (hq : q < count) :
    (protectedChunk encode size packet q).length = size + parityBytes := by
  simp only [protectedChunk, List.length_append, Vector.length_toList,
    length_piece hlen hq]

theorem rsBlock_eq {count size : ℕ} {packet : List UInt8} (hs : 0 < size)
    (hlen : packet.length = count * size) :
    rsBlock encode size packet =
      (List.range count).flatMap (protectedChunk encode size packet) := by
  have hc : packet.length ⌈/⌉ size = count := by
    rw [hlen, Nat.mul_comm, ← smul_eq_mul, smul_ceilDiv hs]
  rw [rsBlock, pieces, hc, List.flatMap_map]
  rfl

def block (encode : List UInt8 → Vector UInt8 parityBytes) (pft : PFT) (af : List UInt8) :
    List UInt8 :=
  (List.range (pft.chunkCount af)).flatMap
    (protectedChunk encode (pft.chunkLen af) (pft.padded af))

theorem length_block_of_pos (hk : 0 < pft.k.toNat) (hne : af ≠ []) :
    (pft.block encode af).length = pft.chunkCount af * (pft.chunkLen af + parityBytes) :=
  length_flatMap_range fun _ hq => length_protectedChunk (length_padded_of_pos hk hne) hq

theorem length_block (hv : pft.Valid) (hne : af ≠ []) :
    (pft.block encode af).length = pft.chunkCount af * (pft.chunkLen af + parityBytes) :=
  length_block_of_pos hv.k_pos hne

theorem chunkCount_pos_of_pos (hk : 0 < pft.k.toNat) (hne : af ≠ []) : 0 < pft.chunkCount af :=
  partCount_pos (List.length_pos_iff.mpr hne) hk

theorem chunkCount_pos (hv : pft.Valid) (hne : af ≠ []) : 0 < pft.chunkCount af :=
  chunkCount_pos_of_pos hv.k_pos hne

theorem protect_of_pos (hk : 0 < pft.k.toNat) (hle : pft.k.toNat ≤ 207) (hne : af ≠ []) :
    protect encode pft af =
      .ok (pft.block encode af, { pft with numChunks := pft.chunkCount af }) := by
  have hl := List.length_pos_iff.mpr hne
  have hs : pft.chunkLen af ≤ pft.k.toNat := partSize_le hl hk
  have hfirst : ceilDiv af.length pft.k.toNat = .ok (pft.chunkCount af) := ceilDiv_of_pos hk
  have hsecond : ceilDiv af.length (pft.chunkCount af) = .ok (pft.chunkLen af) :=
    ceilDiv_of_pos (chunkCount_pos_of_pos hk hne)
  have hblock : rsBlock encode (pft.chunkLen af) (pft.padded af) = pft.block encode af :=
    rsBlock_eq (partSize_pos hl hk) (length_padded_of_pos hk hne)
  simp only [protect, hfirst, hsecond, bind, Except.bind]
  rw [if_neg (by omega), ← hblock]
  rfl

theorem protect_eq (hv : pft.Valid) (hne : af ≠ []) :
    protect encode pft af =
      .ok (pft.block encode af, { pft with numChunks := pft.chunkCount af }) :=
  protect_of_pos hv.k_pos hv.k_le hne

def maxPayloadSize (pft : PFT) (af : List UInt8) : ℕ :=
  if pft.enableRS then pft.chunkCount af * parityBytes / (pft.m.toNat + 1) else 1400

theorem chunkCount_le_maxPayloadSize (hv : pft.Valid) :
    pft.enableRS → pft.chunkCount af ≤ pft.maxPayloadSize af := by
  intro h
  have hm := hv.m_le
  rw [maxPayloadSize, if_pos h, Nat.le_div_iff_mul_le (by omega)]
  exact Nat.mul_le_mul_left _ (by simp only [parityBytes]; omega)

theorem maxPayloadSize_pos (hv : pft.Valid) (hne : af ≠ []) : 0 < pft.maxPayloadSize af := by
  by_cases h : pft.enableRS
  · exact lt_of_lt_of_le (chunkCount_pos hv hne) (chunkCount_le_maxPayloadSize hv h)
  · rw [maxPayloadSize, if_neg h]
    omega

def content (encode : List UInt8 → Vector UInt8 parityBytes) (pft : PFT) (af : List UInt8) :
    List UInt8 := if pft.enableRS then pft.block encode af else af

def numFragments (encode : List UInt8 → Vector UInt8 parityBytes) (pft : PFT) (af : List UInt8) :
    ℕ := partCount (pft.content encode af).length (pft.maxPayloadSize af)

def fragmentSize (encode : List UInt8 → Vector UInt8 parityBytes) (pft : PFT) (af : List UInt8) :
    ℕ := partSize (pft.content encode af).length (pft.maxPayloadSize af)

def payloads (encode : List UInt8 → Vector UInt8 parityBytes) (pft : PFT) (af : List UInt8) :
    List (List UInt8) :=
  if pft.enableRS then
    columns (pft.numFragments encode af) (pft.fragmentSize encode af)
      fun p => (pft.block encode af).getD p 0
  else pieces (pft.numFragments encode af) (pft.fragmentSize encode af) af

@[simp] theorem length_payloads :
    (pft.payloads encode af).length = pft.numFragments encode af := by
  unfold payloads
  split
  · exact length_columns _ _ _
  · exact length_pieces _ _ _

theorem content_of_pos (h : pft.enableRS) : pft.content encode af = pft.block encode af := if_pos h

theorem length_content_pos (hv : pft.Valid) (hne : af ≠ []) :
    0 < (pft.content encode af).length := by
  unfold content
  split
  · rw [length_block hv hne]
    exact Nat.mul_pos (chunkCount_pos hv hne) (by simp [parityBytes])
  · exact List.length_pos_iff.mpr hne

theorem numFragments_pos (hv : pft.Valid) (hne : af ≠ []) :
    0 < pft.numFragments encode af :=
  partCount_pos (length_content_pos hv hne) (maxPayloadSize_pos hv hne)

theorem length_content_le (hv : pft.Valid) (hne : af ≠ []) :
    (pft.content encode af).length ≤ pft.numFragments encode af * pft.fragmentSize encode af :=
  le_parts (length_content_pos hv hne) (maxPayloadSize_pos hv hne)

theorem fragments_lt (hv : pft.Valid) (hne : af ≠ []) :
    pft.numFragments encode af * pft.fragmentSize encode af <
      (pft.content encode af).length + pft.numFragments encode af :=
  smul_ceilDiv_lt (numFragments_pos hv hne)

def counted (pft : PFT) (af : List UInt8) : PFT :=
  if pft.enableRS then { pft with numChunks := pft.chunkCount af } else pft

/-- What cutting a packet up yields. -/
theorem protectAndFragment_eq (hv : pft.Valid) (hne : af ≠ []) :
    protectAndFragment encode pft af = .ok (pft.payloads encode af, pft.counted af) := by
  have hcount : ceilDiv (pft.content encode af).length (pft.maxPayloadSize af) =
      .ok (pft.numFragments encode af) := ceilDiv_of_pos (maxPayloadSize_pos hv hne)
  have hsize : ceilDiv (pft.content encode af).length (pft.numFragments encode af) =
      .ok (pft.fragmentSize encode af) := ceilDiv_of_pos (numFragments_pos hv hne)
  by_cases h : pft.enableRS
  · have hm := hv.m_le
    have hdiv : (pft.m + 1).toNat = pft.m.toNat + 1 := by
      rw [UInt32.toNat_add, UInt32.toNat_one, Nat.mod_eq_of_lt (by omega)]
    simp only [content, if_pos h, maxPayloadSize] at hcount hsize
    simp only [protectAndFragment, if_pos h, protect_eq hv hne, bind, Except.bind, hdiv,
      hcount, hsize, counted, payloads, columns]
    rw [if_neg (by omega)]
  · simp only [content, if_neg h, maxPayloadSize] at hcount hsize
    simp only [protectAndFragment, if_neg h, bind, Except.bind, hcount, hsize, counted, payloads]

def headerAt (encode : List UInt8 → Vector UInt8 parityBytes) (pft : PFT) (af : List UInt8)
    (findex size : ℕ) : List UInt8 :=
  if pft.enableRS then
    pft.header findex (pft.numFragments encode af) size (pft.chunkLen af) (pft.zeroPad af)
  else pft.header findex (pft.numFragments encode af) size 0 0

/-- What one call yields for a packet. -/
theorem assemble_eq (hv : pft.Valid) (hne : af ≠ []) :
    assemble encode pft af =
      (.ok ((pft.payloads encode af).zipIdx.map fun (payload, findex) =>
        pftFragment (pft.headerAt encode af findex payload.length) payload),
        { pft.counted af with pseq := pft.pseq + 1 }) := by
  have hsecond : ceilDiv af.length (pft.chunkCount af) = .ok (pft.chunkLen af) :=
    ceilDiv_of_pos (chunkCount_pos hv hne)
  have hpad : pft.zeroPad af = pft.chunkCount af * pft.chunkLen af - af.length := rfl
  by_cases h : pft.enableRS
  · have hcounted : ({ pft with numChunks := pft.chunkCount af } : PFT).enableRS := h
    simp only [assemble, assembleFragments, protectAndFragment_eq hv hne, bind,
      Except.bind, counted, if_pos h, if_pos hcounted, hsecond, length_payloads, headerAt, hpad]
    rfl
  · simp only [assemble, assembleFragments, protectAndFragment_eq hv hne, bind,
      Except.bind, counted, if_neg h, length_payloads, headerAt]

theorem Valid.assemble (hv : pft.Valid) (hne : af ≠ []) : (assemble encode pft af).2.Valid := by
  rw [assemble_eq hv hne]
  simp only [counted]
  split <;> exact ⟨hv.k_pos, hv.k_le, hv.m_le⟩

theorem pseq_assemble (hv : pft.Valid) (hne : af ≠ []) :
    (PFT.assemble encode pft af).2.pseq = pft.pseq + 1 := by rw [assemble_eq hv hne]

end Spec

end PFT

end SourceCompanion.Edi
