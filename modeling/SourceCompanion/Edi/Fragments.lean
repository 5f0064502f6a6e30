import Mathlib.Data.List.Sort
import SourceCompanion.Edi.PFT
import SourceCompanion.Run.Mealy

/-! # Receiving fragments

A receiver reads the header of each fragment, orders the fragments of one packet by their
index and undoes the fragmentation and the protection. Whatever the order of arrival, it
recovers the packet.
-/

namespace SourceCompanion.Edi

open Bytes Interleave

structure Fragment where
  pseq : ℕ
  findex : ℕ
  fcount : ℕ
  fec : Bool
  rsK : ℕ
  rsZ : ℕ
  payload : List UInt8
  deriving DecidableEq, Repr

/-- A fragment is read only if its header verifies and its payload is `Plen` bytes long. -/
def readFragment (bytes : List UInt8) : Option Fragment :=
  let flags := ofBE (slice bytes 10 2)
  let fec : Bool := flags / 2 ^ 15 % 2 = 1
  let headerLen := 12 + (if fec then 2 else 0) + (if flags / 2 ^ 14 % 2 = 1 then 4 else 0)
  let payload := bytes.drop (headerLen + 2)
  if slice bytes 0 2 = ascii ['P', 'F'] ∧
      ofBE (slice bytes headerLen 2) = (checksum (bytes.take headerLen)).toNat ∧
      payload.length = flags % 2 ^ 14 then
    some {
      pseq := ofBE (slice bytes 2 2)
      findex := ofBE (slice bytes 4 3)
      fcount := ofBE (slice bytes 7 3)
      fec
      rsK := if fec then ofBE (slice bytes 12 1) else 0
      rsZ := if fec then ofBE (slice bytes 13 1) else 0
      payload }
  else none

/-- The fragments that can be read, by their index. -/
def ordered (packets : List (List UInt8)) : List Fragment :=
  (packets.filterMap readFragment).mergeSort fun a b => a.findex ≤ b.findex

/-- Undo the interleaving, drop the parity bytes of each chunk and the padding of the last. -/
def unprotect (fcount plen rsK rsZ : ℕ) (fragments : List Fragment) : List UInt8 :=
  let block := deinterleave fcount plen fun i => fragments[i]?.map (·.payload)
  let chunks := fcount * plen / (rsK + parityBytes)
  let data := (List.range chunks).flatMap fun q => slice block (q * (rsK + parityBytes)) rsK
  data.take (data.length - rsZ)

/-- The packet of a complete set of fragments, received in any order. -/
def reassemble (packets : List (List UInt8)) : Option (List UInt8) :=
  match ordered packets with
  | [] => none
  | fragments@(first :: _) =>
    if fragments.length = first.fcount then
      if first.fec then
        some (unprotect first.fcount first.payload.length first.rsK first.rsZ fragments)
      else some (fragments.flatMap (·.payload))
    else none

section Header

theorem plen_toNat {size : ℕ} (hsize : size < 2 ^ 14) (rs : Bool) :
    (UInt32.ofNat size ||| (if rs then 0x8000 else 0) |||
      (if transportHeader then 0x4000 else 0)).toNat = size + if rs then 2 ^ 15 else 0 := by
  have hmod : size % 2 ^ 32 = size := Nat.mod_eq_of_lt (by omega)
  cases rs with
  | false => simpa [transportHeader] using hmod
  | true =>
    have hor := or_mul_two_pow (show size < 2 ^ 15 by omega) 1
    simp only [transportHeader, UInt32.toNat_or, UInt32.toNat_ofNat', hmod]
    simpa using hor

theorem plen_bits {size : ℕ} (hsize : size < 2 ^ 14) (fec : Bool) :
    decide ((size + if fec then 2 ^ 15 else 0) / 2 ^ 15 % 2 = 1) = fec ∧
      (size + if fec then 2 ^ 15 else 0) / 2 ^ 14 % 2 = 0 ∧
      (size + if fec then 2 ^ 15 else 0) % 2 ^ 14 = size := by
  cases fec with
  | false => simp; omega
  | true => simp; omega

/-! What a reader finds around the checksum of a fragment. -/

theorem slice_pftFragment {header : List UInt8} {off len : ℕ} (h : off + len ≤ header.length)
    (payload : List UInt8) :
    slice (PFT.pftFragment header payload) off len = slice header off len := by
  rw [PFT.pftFragment, List.append_assoc, slice_append_left h]

theorem slice_pftFragment_checksum (header payload : List UInt8) :
    slice (PFT.pftFragment header payload) header.length 2 = be16 (checksum header) := by
  rw [PFT.pftFragment, slice_append_left (by simp), slice_append_right le_rfl, Nat.sub_self,
    slice_self (length_be16 _)]

theorem take_pftFragment (header payload : List UInt8) :
    (PFT.pftFragment header payload).take header.length = header := by
  rw [PFT.pftFragment, List.append_assoc, List.take_left]

theorem drop_pftFragment (header payload : List UInt8) :
    (PFT.pftFragment header payload).drop (header.length + 2) = payload :=
  List.drop_left' (by simp)

/-- Reading the fields of a header back at their offsets. -/
theorem readFragment_append {psync pseq findex fcount plen rs payload : List UInt8}
    (hpsync : psync = ascii ['P', 'F']) (hpseq : pseq.length = 2) (hfindex : findex.length = 3)
    (hfcount : fcount.length = 3) (hplen : plen.length = 2) {fec : Bool}
    (hflags : ofBE plen = payload.length + if fec then 2 ^ 15 else 0)
    (hp : payload.length < 2 ^ 14) (hrs : rs.length = if fec then 2 else 0) :
    let header := psync ++ pseq ++ findex ++ fcount ++ plen ++ rs
    readFragment (PFT.pftFragment header payload) =
      some {
        pseq := ofBE pseq
        findex := ofBE findex
        fcount := ofBE fcount
        fec
        rsK := if fec then ofBE (slice rs 0 1) else 0
        rsZ := if fec then ofBE (slice rs 1 1) else 0
        payload } := by
  intro header
  have hps : psync.length = 2 := by rw [hpsync]; rfl
  have hlen : header.length = 12 + rs.length := by
    simp only [header, List.length_append, hps, hpseq, hfindex, hfcount, hplen]
  obtain ⟨hfec, haddr, hsize⟩ := plen_bits hp fec
  rw [← hflags] at hfec haddr hsize
  have hslice (off len : ℕ) (h : off + len ≤ header.length) :
      slice (PFT.pftFragment header payload) off len = slice header off len :=
    slice_pftFragment h payload
  have hfields : slice header 0 2 = psync ∧ slice header 2 2 = pseq ∧
      slice header 4 3 = findex ∧ slice header 7 3 = fcount ∧ slice header 10 2 = plen ∧
      ∀ off len, slice header (12 + off) len = slice rs off len := by
    simp +arith [header, slice_append_left, slice_append_right, slice_self, hps, hpseq, hfindex,
      hfcount, hplen]
  obtain ⟨h₀, h₂, h₄, h₇, h₁₀, h₁₂⟩ := hfields
  have hheaderLen : 12 + (if fec then 2 else 0) +
      (if ofBE plen / 2 ^ 14 % 2 = 1 then 4 else 0) = header.length := by
    rw [haddr, hlen, hrs]
    rfl
  simp only [readFragment]
  rw [hslice 10 2 (by omega), h₁₀, hslice 0 2 (by omega), h₀, hslice 2 2 (by omega), h₂,
    hslice 4 3 (by omega), h₄, hslice 7 3 (by omega), h₇]
  rw [hfec, hheaderLen, slice_pftFragment_checksum, take_pftFragment, drop_pftFragment, hsize,
    if_pos ⟨hpsync, by simp, rfl⟩]
  cases fec with
  | false => rfl
  | true =>
    have hrs₂ : rs.length = 2 := hrs
    rw [hslice 12 1 (by omega), h₁₂ 0, hslice 13 1 (by omega), h₁₂ 1]

variable {pft : PFT} {findex fcount chunkLen zeroPad : ℕ} {payload : List UInt8}

theorem readFragment_pftFragment (hi : findex < 2 ^ 24) (hc : fcount < 2 ^ 24)
    (hp : payload.length < 2 ^ 14) (hk : chunkLen < 2 ^ 8) (hz : zeroPad < 2 ^ 8) :
    readFragment (PFT.pftFragment
      (pft.header findex fcount payload.length chunkLen zeroPad) payload) =
      some {
        pseq := pft.pseq.toNat
        findex, fcount
        fec := pft.enableRS
        rsK := if pft.enableRS then chunkLen else 0
        rsZ := if pft.enableRS then zeroPad else 0
        payload } := by
  have hi24 : (UInt32.ofNat findex).toNat % 2 ^ 24 = findex := by
    rw [UInt32.toNat_ofNat']
    omega
  have hc24 : (UInt32.ofNat fcount).toNat % 2 ^ 24 = fcount := by
    rw [UInt32.toNat_ofNat']
    omega
  have hk8 : (UInt8.ofNat chunkLen).toNat = chunkLen := UInt8.toNat_ofNat_of_lt' hk
  have hz8 : (UInt8.ofNat zeroPad).toNat = zeroPad := UInt8.toNat_ofNat_of_lt' hz
  rw [PFT.header]
  generalize pft.enableRS = fec
  have hplen := plen_toNat hp fec
  have hflags := ofBE_low16 (UInt32.ofNat payload.length ||| (if fec then 0x8000 else 0) |||
    (if transportHeader then 0x4000 else 0))
  have hrs : (if fec then [UInt8.ofNat chunkLen, UInt8.ofNat zeroPad] else []).length =
      if fec then 2 else 0 := by cases fec <;> rfl
  rw [hplen, Nat.mod_eq_of_lt (by split <;> omega)] at hflags
  have hread := readFragment_append rfl (length_be16 pft.pseq) (length_be24 (UInt32.ofNat findex))
    (length_be24 (UInt32.ofNat fcount)) rfl hflags hp hrs
  simp only [ofBE_be16, ofBE_be24, hi24, hc24] at hread
  -- No address fields follow, as the transport header is deactivated.
  simp only [transportHeader, Bool.false_eq_true, if_false, List.append_nil] at hread ⊢
  rw [hread]
  cases fec with
  | false => rfl
  | true => simp [slice, -UInt8.toNat_ofNat', hk8, hz8]

end Header

section Reassembly

theorem ordered_of_perm {packets shuffled : List (List UInt8)} {fragments : List Fragment}
    (hread : packets.map readFragment = fragments.map some) {n : ℕ}
    (hindex : fragments.map (·.findex) = List.range n) (hperm : shuffled.Perm packets) :
    ordered shuffled = fragments := by
  have hall : packets.filterMap readFragment = fragments := by
    simpa [List.filterMap_map] using congrArg (List.filterMap id) hread
  have hsort : (ordered shuffled).Perm fragments :=
    (List.mergeSort_perm _ _).trans (hall ▸ hperm.filterMap readFragment)
  have hlt : fragments.Pairwise fun a b => a.findex ≤ b.findex := by
    have := List.pairwise_lt_range (n := n)
    rw [← hindex, List.pairwise_map] at this
    exact this.imp fun h => h.le
  have hnodup : (fragments.map (·.findex)).Nodup := hindex ▸ List.nodup_range
  have hsorted : (ordered shuffled).Pairwise fun a b => a.findex ≤ b.findex := by
    have htrans (a b c : Fragment) : decide (a.findex ≤ b.findex) = true →
        decide (b.findex ≤ c.findex) = true → decide (a.findex ≤ c.findex) = true := by
      simpa using le_trans
    have htotal (a b : Fragment) :
        (decide (a.findex ≤ b.findex) || decide (b.findex ≤ a.findex)) = true := by
      simpa using le_total a.findex b.findex
    simpa [ordered] using List.pairwise_mergeSort htrans htotal (shuffled.filterMap readFragment)
  refine List.Perm.eq_of_pairwise (fun a b ha hb hab hba => ?_) hsorted hlt hsort
  exact List.inj_on_of_nodup_map hnodup (hsort.subset ha) hb (le_antisymm hab hba)

variable {encode : List UInt8 → Vector UInt8 parityBytes} {pft : PFT} {af : List UInt8}

def received (encode : List UInt8 → Vector UInt8 parityBytes) (pft : PFT) (af : List UInt8) :
    List Fragment :=
  (pft.payloads encode af).zipIdx.map fun (payload, findex) => {
    pseq := pft.pseq.toNat
    findex
    fcount := pft.numFragments encode af
    fec := pft.enableRS
    rsK := if pft.enableRS then pft.chunkLen af else 0
    rsZ := if pft.enableRS then pft.zeroPad af else 0
    payload }

theorem map_findex_received :
    (received encode pft af).map (·.findex) = List.range (pft.numFragments encode af) := by
  rw [received, List.map_map, ← PFT.length_payloads, List.range_eq_range', ← List.zipIdx_map_snd]
  rfl

theorem map_payload_received :
    (received encode pft af).map (·.payload) = pft.payloads encode af := by
  rw [received, List.map_map]
  exact List.zipIdx_map_fst 0 _

@[simp] theorem length_received :
    (received encode pft af).length = pft.numFragments encode af := by simp [received]

theorem numFragments_le (hv : pft.Valid) (hne : af ≠ []) (hrs : pft.enableRS) :
    pft.numFragments encode af ≤ pft.chunkLen af + parityBytes := by
  rw [PFT.numFragments, partCount, ceilDiv_le_iff_le_smul (PFT.maxPayloadSize_pos hv hne),
    PFT.content_of_pos hrs, PFT.length_block hv hne]
  exact Nat.mul_le_mul_right _ (PFT.chunkCount_le_maxPayloadSize hv hrs)

theorem unprotect_eq (hv : pft.Valid) (hne : af ≠ []) (hrs : pft.enableRS)
    {fragments : List Fragment} (hpay : fragments.map (·.payload) = pft.payloads encode af) :
    unprotect (pft.numFragments encode af) (pft.fragmentSize encode af) (pft.chunkLen af)
      (pft.zeroPad af) fragments = af := by
  have hle : (pft.content encode af).length ≤ _ := PFT.length_content_le hv hne
  have hlt : _ < (pft.content encode af).length + _ := PFT.fragments_lt hv hne
  have hfew : pft.numFragments encode af ≤ _ := numFragments_le hv hne hrs
  have hlen : (pft.block encode af).length = _ := PFT.length_block hv hne
  rw [PFT.content_of_pos hrs] at hle hlt
  -- The bytes that even out the fragments do not make up a chunk.
  replace hlt := hlt.trans_le (Nat.add_le_add_left hfew _)
  rw [hlen, ← Nat.succ_mul] at hlt
  have hchunks : pft.numFragments encode af * pft.fragmentSize encode af /
      (pft.chunkLen af + parityBytes) = pft.chunkCount af :=
    Nat.div_eq_of_lt_le (hlen ▸ hle) hlt
  have hblock : deinterleave (pft.numFragments encode af) (pft.fragmentSize encode af)
      (fun i => fragments[i]?.map (·.payload)) = pft.block encode af ++ List.replicate
        (pft.numFragments encode af * pft.fragmentSize encode af -
          (pft.block encode af).length) 0 := by
    rw [← map_getD_range hle, deinterleave_columns]
    intro i _
    rw [← List.getElem?_map, hpay, PFT.payloads, if_pos hrs]
  -- Each chunk starts with its part of the padded packet.
  have hdata : (List.range (pft.chunkCount af)).flatMap (fun q =>
      slice (pft.block encode af ++ List.replicate
        (pft.numFragments encode af * pft.fragmentSize encode af -
          (pft.block encode af).length) 0)
        (q * (pft.chunkLen af + parityBytes)) (pft.chunkLen af)) = pft.padded af := by
    rw [← flatten_pieces_of_le (PFT.length_padded hv hne).le, pieces, ← List.flatMap_def]
    refine List.flatMap_congr fun q hq => ?_
    have hq' := List.mem_range.mp hq
    have hplen := PFT.length_padded hv hne
    rw [slice, PFT.block, take_drop_flatMap_range
      (fun i hi => PFT.length_protectedChunk hplen hi) hq' (Nat.le_add_right _ _)]
    exact List.take_left' (length_piece hplen hq')
  have hpad : (pft.padded af).length - pft.zeroPad af = af.length := by
    rw [PFT.padded, List.length_append, List.length_replicate, Nat.add_sub_cancel]
  rw [unprotect, hblock, hchunks]
  simp only [hdata]
  rw [hpad, PFT.padded, List.take_left]

theorem map_readFragment (hv : pft.Valid) (hne : af ≠ [])
    (hcount : pft.numFragments encode af < 2 ^ 24)
    (hsize : ∀ payload ∈ pft.payloads encode af, payload.length < 2 ^ 14) :
    ((pft.payloads encode af).zipIdx.map fun (payload, findex) =>
        PFT.pftFragment (pft.headerAt encode af findex payload.length) payload).map readFragment =
      (received encode pft af).map some := by
  have hl := List.length_pos_iff.mpr hne
  have hk := hv.k_le
  have hchunk : pft.chunkLen af ≤ pft.k.toNat := partSize_le hl hv.k_pos
  have hpad : pft.zeroPad af < pft.k.toNat := partPad_lt hl hv.k_pos
  simp only [received, List.map_map]
  refine List.map_congr_left fun ⟨payload, findex⟩ hmem => ?_
  have hp := hsize payload (List.fst_mem_of_mem_zipIdx hmem)
  have hi : findex < pft.numFragments encode af := by
    simpa using List.snd_lt_of_mem_zipIdx hmem
  simp only [Function.comp, PFT.headerAt]
  split
  · rw [readFragment_pftFragment (by omega) hcount hp (by omega) (by omega)]
    simp [*]
  · rw [readFragment_pftFragment (by omega) hcount hp (by omega) (by omega)]
    simp [*]

theorem reassemble_of_perm (hv : pft.Valid) (hne : af ≠ []) {packets shuffled : List (List UInt8)}
    (hread : packets.map readFragment = (received encode pft af).map some)
    (hperm : shuffled.Perm packets) : reassemble shuffled = some af := by
  have hord : ordered shuffled = received encode pft af :=
    ordered_of_perm hread map_findex_received hperm
  obtain ⟨first, rest, hcons⟩ := List.exists_cons_of_length_pos
    (length_received ▸ PFT.numFragments_pos hv hne : 0 < (received encode pft af).length)
  have hfirst : first ∈ received encode pft af := hcons ▸ List.mem_cons_self
  have hpayload : first.payload ∈ pft.payloads encode af :=
    map_payload_received ▸ List.mem_map_of_mem hfirst
  obtain ⟨⟨payload, findex⟩, hmem, rfl⟩ := List.mem_map.mp hfirst
  rw [reassemble, hord, hcons]
  simp only
  rw [← hcons, if_pos length_received]
  by_cases hrs : pft.enableRS
  · rw [PFT.payloads, if_pos hrs] at hpayload
    rw [if_pos hrs, if_pos hrs, if_pos hrs, length_of_mem_columns hpayload,
      unprotect_eq hv hne hrs map_payload_received]
  · have hcover : (pft.content encode af).length ≤ _ := PFT.length_content_le hv hne
    rw [PFT.content, if_neg hrs] at hcover
    rw [if_neg hrs, List.flatMap_def, map_payload_received, PFT.payloads, if_neg hrs,
      flatten_pieces_of_le hcover]

end Reassembly

section Run

/-- The fragments of a packet are few and short enough for the fields of their headers. -/
def Fits (encode : List UInt8 → Vector UInt8 parityBytes) (pft : PFT) (af : List UInt8) : Prop :=
  ∀ payloads next, pft.protectAndFragment encode af = .ok (payloads, next) →
    payloads.length < 2 ^ 24 ∧ ∀ payload ∈ payloads, payload.length < 2 ^ 14

variable {encode : List UInt8 → Vector UInt8 parityBytes}

theorem state_assemble {pft : PFT} (hv : pft.Valid) {afs : List (List UInt8)}
    (hne : ∀ af ∈ afs, af ≠ []) :
    (Mealy.state (PFT.assemble encode) pft afs).Valid ∧
      (Mealy.state (PFT.assemble encode) pft afs).pseq = pft.pseq + UInt16.ofNat afs.length := by
  induction afs generalizing pft with
  | nil => exact ⟨hv, by simp⟩
  | cons af afs ih =>
    have haf := hne af List.mem_cons_self
    obtain ⟨hvalid, hpseq⟩ := ih (hv.assemble haf) fun af h => hne af (List.mem_cons_of_mem _ h)
    refine ⟨hvalid, ?_⟩
    rw [Mealy.state_cons, hpseq, PFT.pseq_assemble hv haf, List.length_cons, UInt16.ofNat_add,
      UInt16.add_assoc, UInt16.add_comm 1]
    rfl

/-- In every run, a receiver recovers each packet from its fragments in any order, and the
headers number the fragments and the packet. -/
theorem fragments_reassemble {conf : Configuration} {pft : PFT}
    (hconf : PFT.ofConfiguration conf = .ok pft) (hk : 1 ≤ conf.chunkLen) (hfec : conf.fec ≤ 47)
    {afs : List (List UInt8)} (hne : ∀ af ∈ afs, af ≠ []) {n : ℕ} {af : List UInt8}
    (hn : afs[n]? = some af)
    (hfits : Fits encode (Mealy.state (PFT.assemble encode) pft (afs.take n)) af) :
    ∃ (fragments : List (List UInt8)) (reads : List Fragment),
      (Mealy.outputs (PFT.assemble encode) pft afs)[n]? = some (.ok fragments) ∧
      fragments.map readFragment = reads.map some ∧
      reads.map (·.findex) = List.range fragments.length ∧
      (∀ read ∈ reads, read.pseq = n % 2 ^ 16 ∧ read.fcount = fragments.length) ∧
      ∀ shuffled : List (List UInt8), shuffled.Perm fragments → reassemble shuffled = some af := by
  obtain ⟨hv, hpseq⟩ := PFT.Valid.of_configuration hconf hk hfec
  have hlt : n < afs.length := (List.getElem?_eq_some_iff.mp hn).1
  have haf : af ≠ [] := hne af (List.mem_of_getElem? hn)
  have hne' : ∀ af ∈ afs.take n, af ≠ [] := fun af h => hne af (List.mem_of_mem_take h)
  obtain ⟨hvn, hpseqn⟩ :=
    (state_assemble hv hne' : (Mealy.state (PFT.assemble encode) pft (afs.take n)).Valid ∧ _)
  rw [hpseq, UInt16.zero_add, List.length_take, Nat.min_eq_left hlt.le] at hpseqn
  generalize hs : Mealy.state (PFT.assemble encode) pft (afs.take n) = pftn at *
  obtain ⟨hcount, hsize⟩ := hfits _ _ (PFT.protectAndFragment_eq hvn haf)
  rw [PFT.length_payloads] at hcount
  have hread := map_readFragment hvn haf hcount hsize
  refine ⟨_, received encode pftn af, ?_, hread, ?_, ?_, ?_⟩
  · rw [Mealy.outputs_getElem?, hn, hs, Option.map_some, PFT.assemble_eq hvn haf]
  · rw [map_findex_received, List.length_map, List.length_zipIdx, PFT.length_payloads]
  · intro read hmem
    obtain ⟨p, -, rfl⟩ := List.mem_map.mp hmem
    rw [List.length_map, List.length_zipIdx, PFT.length_payloads, hpseqn, UInt16.toNat_ofNat']
    exact ⟨rfl, rfl⟩
  · exact fun shuffled hperm => reassemble_of_perm hvn haf hread hperm

theorem fragments_reassemble_protected :
    ∃ (fragments : List (List UInt8)) (reads : List Fragment),
      (Mealy.outputs (PFT.assemble fun _ => Vector.replicate parityBytes 0)
        { k := 4, m := 1 } [[1, 2, 3], [4, 5, 6, 7, 8]])[1]? = some (.ok fragments) ∧
      fragments.map readFragment = reads.map some ∧
      reads.map (·.findex) = List.range fragments.length ∧
      (∀ read ∈ reads, read.pseq = 1 ∧ read.fcount = fragments.length) ∧
      ∀ shuffled : List (List UInt8), shuffled.Perm fragments →
        reassemble shuffled = some [4, 5, 6, 7, 8] :=
  fragments_reassemble (show PFT.ofConfiguration { chunkLen := 4, fec := 1 } = _ from rfl)
    (by decide) (by decide) (by decide) (show [[1, 2, 3], [4, 5, 6, 7, 8]][1]? = _ from rfl)
    (by
      rintro payloads next ⟨⟩
      decide)

end Run

end SourceCompanion.Edi
