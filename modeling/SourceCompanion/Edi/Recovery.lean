import Mathlib.Data.List.GetD
import SourceCompanion.Edi.Divisors
import SourceCompanion.Edi.Erasure
import SourceCompanion.Edi.Fragments
import SourceCompanion.Fec.ReedSolomon

/-! # Recovering lost fragments

With the parity of the codec in place, a receiver restores the packets of a run although some of
the fragments of each packet never arrive. It runs the decoder on every chunk, with the bytes of
the missing fragments as erasures.
-/

namespace SourceCompanion.Edi

open Bytes Fec Interleave

/-- The codec of the protection: the chunk is padded at its end, so the block is never
shortened. -/
def rsEncoder : Except Failure ReedSolomon :=
  let firstRoot := 1
  let gfPoly := 0x11d
  let reverse := false
  let primElem := 1
  ReedSolomon.create 255 207 reverse gfPoly firstRoot primElem

def protection (codec : ReedSolomon) (chunk : List UInt8) : Vector UInt8 parityBytes :=
  let fec := (codec.encode chunk (List.replicate parityBytes 0)).fec
  Vector.ofFn fun i => fec.getD i 0

/-! ## A receiver with a decoder -/

/-- The word of a chunk as the encoder saw it, with gaps. -/
def chunkWord (rsK : ℕ) (chunk : List (Option UInt8)) : List (Option UInt8) :=
  chunk.take rsK ++ List.replicate (207 - rsK) (some 0) ++ chunk.drop rsK

def restoreChunk (rs : Rs) (rsK : ℕ) (chunk : List (Option UInt8)) : List UInt8 :=
  let word := chunkWord rsK chunk
  (decodeRsChar rs (word.map (·.getD 0)) (word.idxsOf none)).data.take rsK

def arrivedChunk (fragments : List Fragment) (fcount rsK q : ℕ) : List (Option UInt8) :=
  (List.range' (q * (rsK + parityBytes)) (rsK + parityBytes)).map <|
    at? fcount fun i => (fragments.find? fun f => f.findex = i).map (·.payload)

/-- The packet with a sequence number, from the fragments that arrived. -/
def restore (rs : Rs) (pseq : ℕ) (packets : List (List UInt8)) : Option (List UInt8) :=
  match (packets.filterMap readFragment).filter fun f => f.pseq = pseq with
  | [] => none
  | fragments@(first :: _) =>
    let chunks := first.fcount * first.payload.length / (first.rsK + parityBytes)
    let data := (List.range chunks).flatMap fun q =>
      restoreChunk rs first.rsK (arrivedChunk fragments first.fcount first.rsK q)
    some (data.take (data.length - first.rsZ))

/-! ## One chunk -/

section

variable {codec : ReedSolomon}

theorem exists_rsEncoder : ∃ codec, rsEncoder = .ok codec := by
  have hin : InRange 255 207 1 1 :=
    ⟨by decide, by decide, by decide, by decide, by decide, by decide, by decide⟩
  have hcoprime : (1 : ℤ).toNat.Coprime 255 := by decide
  obtain ⟨codec, hcodec⟩ := exists_create 0x11d false hin hcoprime
  exact ⟨codec, hcodec⟩

theorem codeword_protection (hcodec : rsEncoder = .ok codec) {chunk : List UInt8}
    (hlen : chunk.length = 207) :
    Codec codec.rsData (BitVec.ofNat 8 0x11d) ∧ codec.rsData.nroots = parityBytes ∧
      codec.rsData.pad = 0 ∧
      Codeword codec.rsData (BitVec.ofNat 8 0x11d) (chunk ++ (protection codec chunk).toList) := by
  have hcreate : ReedSolomon.create 255 207 false 0x11d 1 1 = .ok codec := hcodec
  have hbuffer : ((List.replicate parityBytes (0 : UInt8)).length : ℤ) = 255 - 207 := rfl
  obtain ⟨hcodec', hn, hk, -, hnroots, hpad, -⟩ := codec_of_create hcreate
  obtain ⟨-, -, hfec, hcode⟩ := codeword_of_encode hcreate (by decide)
    (show (chunk.length : ℤ) = 207 by rw [hlen]; rfl) hbuffer
  have hlength : (codec.encode chunk (List.replicate parityBytes 0)).fec.length = 48 := by omega
  have hparity : (protection codec chunk).toList =
      (codec.encode chunk (List.replicate parityBytes 0)).fec := by
    refine List.ext_getElem (by rw [hlength, Vector.length_toList, parityBytes]) fun i hi hi' => ?_
    simp [protection, List.getElem?_eq_getElem hi']
  have hroom := hcodec'.room
  exact ⟨hcodec', by simp only [parityBytes]; omega, by omega, hparity ▸ hcode⟩

theorem length_chunkWord {rsK : ℕ} (hle : rsK ≤ 207) {chunk : List (Option UInt8)}
    (hlen : chunk.length = rsK + parityBytes) : (chunkWord rsK chunk).length = 255 := by
  simp only [chunkWord, List.length_append, List.length_take, List.length_replicate,
    List.length_drop, hlen, parityBytes]
  omega

theorem count_chunkWord (rsK : ℕ) (chunk : List (Option UInt8)) :
    (chunkWord rsK chunk).count none = chunk.count none := by
  have hnone : (List.replicate (207 - rsK) (some (0 : UInt8))).count none = 0 :=
    List.count_eq_zero.mpr fun h => by cases (List.mem_replicate.mp h).2
  conv_rhs => rw [← List.take_append_drop rsK chunk, List.count_append]
  rw [chunkWord, List.count_append, List.count_append, hnone, Nat.add_zero]

theorem getElem?_chunkWord {chunk parity : List UInt8}
    {arrived : List (Option UInt8)} (hlen : arrived.length = chunk.length + parityBytes)
    (hbytes : ∀ (j : ℕ) (b : UInt8), arrived[j]? = some (some b) →
      (chunk ++ parity)[j]? = some b) {p : ℕ} {b : UInt8}
    (hb : (chunkWord chunk.length arrived)[p]? = some (some b)) :
    (chunk ++ List.replicate (207 - chunk.length) 0 ++ parity)[p]? = some b := by
  have htake : (arrived.take chunk.length).length = chunk.length := by
    rw [List.length_take]
    omega
  rw [chunkWord, List.append_assoc] at hb
  rw [List.append_assoc]
  rcases Nat.lt_or_ge p chunk.length with hp | hp
  · rw [List.getElem?_append_left (by omega), List.getElem?_take_of_lt hp] at hb
    have := hbytes p b hb
    rwa [List.getElem?_append_left hp] at this ⊢
  · rw [List.getElem?_append_right (by omega), htake] at hb
    rw [List.getElem?_append_right hp]
    rcases Nat.lt_or_ge (p - chunk.length) (207 - chunk.length) with hp' | hp'
    · rw [List.getElem?_append_left (by simpa using hp'), List.getElem?_replicate, if_pos hp'] at *
      simpa using hb
    · rw [List.getElem?_append_right (by simpa using hp'), List.length_replicate] at *
      rw [List.getElem?_drop] at hb
      have := hbytes _ b hb
      rwa [List.getElem?_append_right (by omega), Nat.add_sub_cancel_left] at this

theorem restoreChunk_eq (hcodec : rsEncoder = .ok codec) {chunk : List UInt8}
    (hle : chunk.length ≤ 207) {arrived : List (Option UInt8)}
    (hlen : arrived.length = chunk.length + parityBytes)
    (hbytes : ∀ (j : ℕ) (b : UInt8), arrived[j]? = some (some b) →
      (chunk ++ (protection codec
        (chunk ++ List.replicate (207 - chunk.length) 0)).toList)[j]? = some b)
    (hfew : arrived.count none ≤ parityBytes) :
    restoreChunk codec.rsData chunk.length arrived = chunk := by
  set padded := chunk ++ List.replicate (207 - chunk.length) 0 with hpadded
  have hlenPadded : padded.length = 207 := by
    rw [hpadded, List.length_append, List.length_replicate]
    omega
  obtain ⟨hrs, hnroots, hpad, hcode⟩ := codeword_protection hcodec hlenPadded
  set code := padded ++ (protection codec padded).toList with hcodeDef
  set word := chunkWord chunk.length arrived with hword
  have hlenWord : word.length = 255 := length_chunkWord hle hlen
  have herrors : errorPositions codec.rsData code (word.map (·.getD 0)) \
      (word.idxsOf none).toFinset = ∅ := by
    refine Finset.sdiff_eq_empty_iff_subset.mpr fun p hp => ?_
    obtain ⟨hlt, hne⟩ := mem_errorPositions.mp hp
    have hp' : p < word.length := by omega
    rw [List.mem_toFinset, List.mem_idxsOf_iff_exists_getElem_pos]
    refine ⟨hp', beq_iff_eq.mpr ?_⟩
    by_contra hsome
    obtain ⟨b, hb⟩ := Option.ne_none_iff_exists'.mp hsome
    have hread := getElem?_chunkWord hlen hbytes
      (show word[p]? = some (some b) by rw [List.getElem?_eq_getElem hp', hb])
    refine hne ?_
    rw [errorAt, hpad, if_pos (Nat.zero_le p), Nat.sub_zero, List.getD_eq_getElem?_getD,
      List.getD_eq_getElem?_getD, hread, List.getElem?_map, List.getElem?_eq_getElem hp', hb]
    exact UInt8.xor_self
  obtain ⟨hdata, -⟩ := hrs.decodeRsChar hcode
    (show (word.map (·.getD 0)).length = _ by rw [List.length_map, hlenWord, hpad])
    (List.nodup_idxsOf : (word.idxsOf none).Nodup) (fun p hp => by
      obtain ⟨hp', -⟩ := List.mem_idxsOf_iff_exists_getElem_pos.mp hp
      omega) (by
      rw [herrors, Finset.card_empty, List.length_idxsOf, hword, count_chunkWord, hnroots]
      omega)
  rw [restoreChunk, ← hword, hdata, hcodeDef, hpadded, List.append_assoc, List.take_left]

end

/-! ## One packet -/

section

variable {encode : List UInt8 → Vector UInt8 parityBytes} {pft : PFT} {af : List UInt8}
  {fragments : List Fragment}

def missing (fragments : List Fragment) (fcount : ℕ) : Finset ℕ :=
  (Finset.range fcount).filter fun i => ∀ f ∈ fragments, f.findex ≠ i

theorem payload_of_mem (hsub : ∀ f ∈ fragments, f ∈ received encode pft af) {f : Fragment}
    (hf : f ∈ fragments) : (pft.payloads encode af)[f.findex]? = some f.payload := by
  obtain ⟨⟨payload, findex⟩, hmem, rfl⟩ := List.mem_map.mp (hsub f hf)
  exact List.mem_zipIdx_iff_getElem?.mp hmem

theorem arrivedChunk_eq (hsub : ∀ f ∈ fragments, f ∈ received encode pft af) (rsK q : ℕ)
    (hn : 0 < pft.numFragments encode af) :
    arrivedChunk fragments (pft.numFragments encode af) rsK q =
      survivingChunk (pft.payloads encode af) (missing fragments (pft.numFragments encode af))
        rsK q := by
  rw [arrivedChunk, survivingChunk, PFT.length_payloads]
  refine List.map_congr_left fun p _ => ?_
  have hlt := Nat.mod_lt p hn
  simp only [at?]
  congr 1
  cases hfind : fragments.find? fun f => f.findex = p % pft.numFragments encode af with
  | none =>
    have hmissing : p % pft.numFragments encode af ∈
        missing fragments (pft.numFragments encode af) := by
      refine Finset.mem_filter.mpr ⟨Finset.mem_range.mpr hlt, fun f hf => ?_⟩
      simpa using List.find?_eq_none.mp hfind f hf
    rw [if_pos hmissing, Option.map_none]
  | some f =>
    have hf := List.mem_of_find?_eq_some hfind
    have hindex : f.findex = p % pft.numFragments encode af := by
      simpa using List.find?_some hfind
    have hthere : p % pft.numFragments encode af ∉
        missing fragments (pft.numFragments encode af) :=
      fun h => (Finset.mem_filter.mp h).2 f hf hindex
    rw [if_neg hthere, ← hindex, payload_of_mem hsub hf, Option.map_some]

theorem chunks_eq (hv : pft.Valid) (hne : af ≠ []) (hrs : pft.enableRS) :
    pft.numFragments encode af * pft.fragmentSize encode af /
      (pft.chunkLen af + parityBytes) = pft.chunkCount af := by
  have hle : (pft.content encode af).length ≤ _ := PFT.length_content_le hv hne
  have hlt : _ < (pft.content encode af).length + _ := PFT.fragments_lt hv hne
  have hfew : pft.numFragments encode af ≤ _ := numFragments_le hv hne hrs
  rw [PFT.content_of_pos hrs, PFT.length_block hv hne] at hle hlt
  refine Nat.div_eq_of_lt_le hle ?_
  rw [Nat.succ_mul]
  exact hlt.trans_le (Nat.add_le_add_left hfew _)

theorem getElem?_protectedChunk (hv : pft.Valid) (hne : af ≠ []) (hrs : pft.enableRS) {q : ℕ}
    (hq : q < pft.chunkCount af) (lost : Finset ℕ) {j : ℕ} {b : UInt8}
    (hb : (survivingChunk (pft.payloads encode af) lost (pft.chunkLen af) q)[j]? =
      some (some b)) :
    (PFT.protectedChunk encode (pft.chunkLen af) (pft.padded af) q)[j]? = some b := by
  have hj : j < pft.chunkLen af + parityBytes := by
    simpa [survivingChunk] using (List.getElem?_eq_some_iff.mp hb).1
  have hblock := getElem?_survivingChunk hv hne hrs hq hb
  have hlen : ∀ i < pft.chunkCount af, (PFT.protectedChunk encode (pft.chunkLen af)
      (pft.padded af) i).length = pft.chunkLen af + parityBytes := fun i hi =>
    PFT.length_protectedChunk (PFT.length_padded hv hne) hi
  obtain ⟨rest, hrest⟩ := drop_flatMap_range hlen hq
  rwa [← List.getElem?_drop, PFT.block, hrest, List.getElem?_append_left (by rwa [hlen q hq])]
    at hblock

theorem flatMap_chunks (hv : pft.Valid) (hne : af ≠ []) :
    (List.range (pft.chunkCount af)).flatMap (fun q =>
      ((pft.padded af).drop (q * pft.chunkLen af)).take (pft.chunkLen af)) = pft.padded af := by
  rw [List.flatMap_def]
  exact flatten_pieces_of_le (PFT.length_padded hv hne).le

end

section

variable {codec : ReedSolomon} {pft : PFT} {af : List UInt8}

theorem restoreChunk_arrivedChunk (hcodec : rsEncoder = .ok codec) (hv : pft.Valid)
    (hm : 1 ≤ pft.m.toNat) (hm' : pft.m.toNat ≤ 5) (hne : af ≠ []) {fragments : List Fragment}
    (hsub : ∀ f ∈ fragments, f ∈ received (protection codec) pft af)
    (hfew : (missing fragments (pft.numFragments (protection codec) af)).card ≤ pft.m.toNat)
    {q : ℕ} (hq : q < pft.chunkCount af) :
    restoreChunk codec.rsData (pft.chunkLen af) (arrivedChunk fragments
        (pft.numFragments (protection codec) af) (pft.chunkLen af) q) =
      ((pft.padded af).drop (q * pft.chunkLen af)).take (pft.chunkLen af) := by
  have hrs : pft.enableRS := decide_eq_true (UInt32.lt_iff_toNat_lt.mpr hm)
  have hlen := length_piece (PFT.length_padded hv hne) hq
  have hle : pft.chunkLen af ≤ 207 :=
    (partSize_le (List.length_pos_iff.mpr hne) hv.k_pos).trans hv.k_le
  have hcount : (survivingChunk (pft.payloads (protection codec) af)
      (missing fragments (pft.numFragments (protection codec) af)) (pft.chunkLen af) q).count
      none ≤ parityBytes :=
    calc _ ≤ (missing fragments (pft.numFragments (protection codec) af)).card *
            ((pft.chunkLen af + parityBytes) ⌈/⌉ pft.numFragments (protection codec) af) :=
          count_none_le hv hne hrs hq
      _ ≤ pft.m.toNat * (parityBytes ⌈/⌉ (pft.m.toNat + 1)) :=
          Nat.mul_le_mul hfew (share_le hv hne hrs)
      _ ≤ parityBytes := shares_le hm hm'
  rw [arrivedChunk_eq hsub _ _ (PFT.numFragments_pos hv hne)]
  have hbytes (j : ℕ) (b : UInt8) (hb : (survivingChunk (pft.payloads (protection codec) af)
      (missing fragments (pft.numFragments (protection codec) af)) (pft.chunkLen af) q)[j]? =
        some (some b)) : (PFT.protectedChunk (protection codec) (pft.chunkLen af)
          (pft.padded af) q)[j]? = some b := getElem?_protectedChunk hv hne hrs hq _ hb
  generalize hsurviving : survivingChunk (pft.payloads (protection codec) af)
    (missing fragments (pft.numFragments (protection codec) af)) (pft.chunkLen af) q = surviving
    at hcount hbytes ⊢
  have hlength : surviving.length = pft.chunkLen af + parityBytes := by
    rw [← hsurviving, survivingChunk, List.length_map, List.length_range']
  simp only [PFT.protectedChunk] at hbytes
  generalize ((pft.padded af).drop (q * pft.chunkLen af)).take (pft.chunkLen af) = chunk
    at hlen hbytes ⊢
  rw [← hlen] at hle hlength ⊢
  exact restoreChunk_eq hcodec hle hlength hbytes hcount

theorem restore_eq (hcodec : rsEncoder = .ok codec) (hv : pft.Valid)
    (hm : 1 ≤ pft.m.toNat) (hm' : pft.m.toNat ≤ 5) (hne : af ≠ []) {pseq : ℕ}
    {packets : List (List UInt8)} {fragments : List Fragment}
    (hread : (packets.filterMap readFragment).filter (fun f => f.pseq = pseq) = fragments)
    (hsub : ∀ f ∈ fragments, f ∈ received (protection codec) pft af)
    (hfew : (missing fragments (pft.numFragments (protection codec) af)).card ≤ pft.m.toNat) :
    restore codec.rsData pseq packets = some af := by
  have hrs : pft.enableRS := decide_eq_true (UInt32.lt_iff_toNat_lt.mpr hm)
  have hmany : pft.m.toNat < pft.numFragments (protection codec) af := by
    have hshare : (pft.chunkLen af + parityBytes) * (pft.m.toNat + 1) ≤
        pft.numFragments (protection codec) af * parityBytes := chunk_mul_le hv hne hrs
    have hless : parityBytes * (pft.m.toNat + 1) ≤
        (pft.chunkLen af + parityBytes) * (pft.m.toNat + 1) :=
      Nat.mul_le_mul_right _ (Nat.le_add_left _ _)
    rw [Nat.mul_comm] at hless
    exact Nat.le_of_mul_le_mul_right (hless.trans hshare) (by decide)
  have hsome : fragments ≠ [] := by
    rintro rfl
    have hall : missing [] (pft.numFragments (protection codec) af) =
        Finset.range (pft.numFragments (protection codec) af) := by simp [missing]
    rw [hall, Finset.card_range] at hfew
    omega
  obtain ⟨first, rest, hcons⟩ := List.exists_cons_of_ne_nil hsome
  have hfirst : first ∈ received (protection codec) pft af :=
    hsub first (hcons ▸ List.mem_cons_self)
  have hfields : first.fcount = pft.numFragments (protection codec) af ∧
      first.rsK = pft.chunkLen af ∧ first.rsZ = pft.zeroPad af := by
    obtain ⟨p, -, rfl⟩ := List.mem_map.mp hfirst
    exact ⟨rfl, if_pos hrs, if_pos hrs⟩
  have hsize : first.payload.length = pft.fragmentSize (protection codec) af := by
    have hpayload : first.payload ∈ pft.payloads (protection codec) af :=
      map_payload_received ▸ List.mem_map_of_mem hfirst
    rw [PFT.payloads, if_pos hrs] at hpayload
    exact length_of_mem_columns hpayload
  obtain ⟨hfcount, hrsK, hrsZ⟩ := hfields
  rw [restore, hread, hcons]
  simp only [hfcount, hrsK, hrsZ, hsize]
  rw [chunks_eq hv hne hrs, ← hcons, List.flatMap_congr fun q hq =>
    restoreChunk_arrivedChunk hcodec hv hm hm' hne hsub hfew (List.mem_range.mp hq),
    flatMap_chunks hv hne, PFT.padded, List.length_append, List.length_replicate,
    Nat.add_sub_cancel, List.take_left]

/-! ## The packets of a run -/

theorem outputs_received {encode : List UInt8 → Vector UInt8 parityBytes} (hv : pft.Valid)
    {afs : List (List UInt8)} (hne : ∀ af ∈ afs, af ≠ []) {n : ℕ} (hn : afs[n]? = some af)
    (hfits : Fits encode (Mealy.state (PFT.assemble encode) pft (afs.take n)) af) :
    ∃ fragments, (Mealy.outputs (PFT.assemble encode) pft afs)[n]? = some (.ok fragments) ∧
      fragments.map readFragment =
        (received encode (Mealy.state (PFT.assemble encode) pft (afs.take n)) af).map some := by
  have hne' : ∀ af ∈ afs.take n, af ≠ [] := fun af h => hne af (List.mem_of_mem_take h)
  have hvalid : (Mealy.state (PFT.assemble encode) pft (afs.take n)).Valid :=
    (state_assemble hv hne').1
  have haf : af ≠ [] := hne af (List.mem_of_getElem? hn)
  obtain ⟨hcount, hsize⟩ := hfits _ _ (PFT.protectAndFragment_eq hvalid haf)
  rw [PFT.length_payloads] at hcount
  refine ⟨_, ?_, map_readFragment hvalid haf hcount hsize⟩
  rw [Mealy.outputs_getElem?, hn, Option.map_some, PFT.assemble_eq hvalid haf]

theorem card_missing_le (stream : List (List UInt8)) {packets : List (List UInt8)}
    {reads : List Fragment}
    (hread : packets.map readFragment = reads.map some) {count : ℕ}
    (hindex : reads.map (·.findex) = List.range count) {pseq : ℕ}
    (hpseq : ∀ f ∈ reads, f.pseq = pseq) :
    (missing ((stream.filterMap readFragment).filter fun f => f.pseq = pseq) count).card ≤
      (packets.filter (· ∉ stream)).length := by
  have hlen' : reads.length = count := by simpa using congrArg List.length hindex
  have hlen : packets.length = count := by simpa [hlen'] using congrArg List.length hread
  have hmap : (List.range count).map (packets.getD · []) = packets := by
    rw [← hlen]
    simpa using map_getD_range le_rfl ([] : List UInt8)
  have hsub : missing ((stream.filterMap readFragment).filter fun f => f.pseq = pseq) count ⊆
      ((List.range count).filter fun i => packets.getD i [] ∉ stream).toFinset := by
    intro i hi
    obtain ⟨hi, hnone⟩ := Finset.mem_filter.mp hi
    rw [Finset.mem_range] at hi
    rw [List.mem_toFinset, List.mem_filter, List.mem_range, decide_eq_true_iff]
    refine ⟨hi, fun hin => ?_⟩
    have hi' : i < reads.length := by omega
    have hfragment : readFragment (packets.getD i []) = some reads[i] := by
      have := congrArg (·[i]?) hread
      simpa [List.getElem?_eq_getElem, hlen, hi, hi'] using this
    have hfindex : reads[i].findex = i := by
      have := congrArg (·[i]?) hindex
      simpa [List.getElem?_eq_getElem, hi, hi'] using this
    refine hnone reads[i] (List.mem_filter.mpr ⟨List.mem_filterMap.mpr ⟨_, hin, hfragment⟩, ?_⟩)
      hfindex
    exact decide_eq_true (hpseq _ (List.getElem_mem _))
  calc _ ≤ _ := Finset.card_le_card hsub
    _ ≤ _ := List.toFinset_card_le _
    _ = (packets.filter (· ∉ stream)).length := by
        conv_rhs => rw [← hmap]
        rw [List.filter_map, List.length_map]
        rfl

theorem pseq_of_mem_received {encode : List UInt8 → Vector UInt8 parityBytes} {f : Fragment}
    (hf : f ∈ received encode pft af) : f.pseq = pft.pseq.toNat := by
  obtain ⟨p, -, rfl⟩ := List.mem_map.mp hf
  rfl

/-- A packet is restored from the stream if no more of its fragments are missing than the
protection is made for. -/
theorem restore_outputs (hv : pft.Valid) (hpseq : pft.pseq = 0) (hm : 1 ≤ pft.m.toNat)
    (hm' : pft.m.toNat ≤ 5) (hcodec : rsEncoder = .ok codec) {afs : List (List UInt8)}
    (hne : ∀ af ∈ afs, af ≠ []) (hshort : afs.length ≤ 2 ^ 16)
    (hfits : ∀ (n : ℕ) (af : List UInt8), afs[n]? = some af → Fits (protection codec)
      (Mealy.state (PFT.assemble (protection codec)) pft (afs.take n)) af)
    {stream : List (List UInt8)}
    (hstream : ∀ packet ∈ stream, ∃ (n : ℕ) (fragments : List (List UInt8)),
      (Mealy.outputs (PFT.assemble (protection codec)) pft afs)[n]? = some (.ok fragments) ∧
        packet ∈ fragments)
    {n : ℕ} (hn : afs[n]? = some af) :
    ∃ fragments : List (List UInt8),
      (Mealy.outputs (PFT.assemble (protection codec)) pft afs)[n]? = some (.ok fragments) ∧
      ((fragments.filter (· ∉ stream)).length ≤ pft.m.toNat →
        restore codec.rsData n stream = some af) := by
  have hlt {i : ℕ} {af : List UInt8} (hi : afs[i]? = some af) : i < 2 ^ 16 :=
    (List.getElem?_eq_some_iff.mp hi).1.trans_le hshort
  have hne' (i : ℕ) : ∀ af ∈ afs.take i, af ≠ [] := fun af h => hne af (List.mem_of_mem_take h)
  have hrun := @state_assemble (protection codec) pft
  -- The sequence number of a packet is its place in the run.
  have hnumber {i : ℕ} {af : List UInt8} (hi : afs[i]? = some af) :
      (Mealy.state (PFT.assemble (protection codec)) pft (afs.take i)).pseq.toNat = i := by
    have hstate := (hrun hv (hne' i)).2
    rw [hstate, hpseq, UInt16.zero_add, UInt16.toNat_ofNat', List.length_take,
      Nat.min_eq_left (List.getElem?_eq_some_iff.mp hi).1.le, Nat.mod_eq_of_lt (hlt hi)]
  obtain ⟨fragments, houtput, hread⟩ := outputs_received hv hne hn (hfits n af hn)
  refine ⟨fragments, houtput, fun hfew => ?_⟩
  have hvalid := (hrun hv (hne' n)).1
  have hkeeps := (PFT.state_keeps (protection codec) hv.k_le (hne' n)).2
  have haf : af ≠ [] := hne af (List.mem_of_getElem? hn)
  have hmissing := card_missing_le stream hread map_findex_received
    fun f hf => (pseq_of_mem_received hf).trans (hnumber hn)
  refine restore_eq hcodec hvalid (hkeeps ▸ hm) (hkeeps ▸ hm') haf rfl (fun f hf => ?_)
    (hkeeps ▸ hmissing.trans hfew)
  -- A fragment with the sequence number is one of the packet.
  obtain ⟨hmem, hseq⟩ := List.mem_filter.mp hf
  obtain ⟨packet, hpacket, hreadPacket⟩ := List.mem_filterMap.mp hmem
  obtain ⟨i, fragments', houtput', hin⟩ := hstream packet hpacket
  obtain ⟨af', hi⟩ : ∃ af', afs[i]? = some af' := by
    rw [Mealy.outputs_getElem?] at houtput'
    obtain ⟨af', hi, -⟩ := Option.map_eq_some_iff.mp houtput'
    exact ⟨af', hi⟩
  obtain ⟨fragments'', houtput'', hread'⟩ := outputs_received hv hne hi (hfits i af' hi)
  obtain rfl : fragments' = fragments'' :=
    Except.ok.inj (Option.some.inj (houtput'.symm.trans houtput''))
  have hreceived : f ∈ received (protection codec)
      (Mealy.state (PFT.assemble (protection codec)) pft (afs.take i)) af' := by
    have := List.mem_map_of_mem (f := readFragment) hin
    rw [hread', hreadPacket, List.mem_map] at this
    obtain ⟨r, hr, heq⟩ := this
    exact Option.some.inj heq ▸ hr
  obtain rfl : i = n := by
    rw [← hnumber hi, ← pseq_of_mem_received hreceived]
    exact of_decide_eq_true hseq
  obtain rfl : af' = af := Option.some.inj (hi.symm.trans hn)
  exact hreceived

theorem PFT.eq_of_configuration {conf : Configuration} {pft : PFT}
    (h : PFT.ofConfiguration conf = .ok pft) : pft.k = conf.chunkLen ∧ pft.m = conf.fec := by
  unfold PFT.ofConfiguration at h
  split at h
  · cases h
  · obtain rfl := Except.ok.inj h
    exact ⟨rfl, rfl⟩

/-- A receiver that sees the fragments of a run in any order, some of them more than once,
restores every packet of which it misses no more fragments than the protection is made for. -/
theorem restore_of_run {conf : Configuration} (hconf : PFT.ofConfiguration conf = .ok pft)
    (hk : 1 ≤ conf.chunkLen) (hfec : 1 ≤ conf.fec) (hfec' : conf.fec ≤ 5)
    (hcodec : rsEncoder = .ok codec) {afs : List (List UInt8)} (hne : ∀ af ∈ afs, af ≠ [])
    (hshort : afs.length ≤ 2 ^ 16)
    (hfits : ∀ (n : ℕ) (af : List UInt8), afs[n]? = some af → Fits (protection codec)
      (Mealy.state (PFT.assemble (protection codec)) pft (afs.take n)) af)
    {stream : List (List UInt8)}
    (hstream : ∀ packet ∈ stream, ∃ (n : ℕ) (fragments : List (List UInt8)),
      (Mealy.outputs (PFT.assemble (protection codec)) pft afs)[n]? = some (.ok fragments) ∧
        packet ∈ fragments)
    {n : ℕ} (hn : afs[n]? = some af) :
    ∃ fragments : List (List UInt8),
      (Mealy.outputs (PFT.assemble (protection codec)) pft afs)[n]? = some (.ok fragments) ∧
      ((fragments.filter (· ∉ stream)).length ≤ conf.fec.toNat →
        restore codec.rsData n stream = some af) := by
  obtain ⟨hv, hpseq⟩ := PFT.Valid.of_configuration hconf hk (UInt32.le_trans hfec' (by decide))
  have hm : pft.m = conf.fec := (PFT.eq_of_configuration hconf).2
  rw [← hm] at hfec hfec' ⊢
  exact restore_outputs hv hpseq hfec hfec' hcodec hne hshort hfits hstream hn

theorem fits_of_chunkCount {encode : List UInt8 → Vector UInt8 parityBytes} (hv : pft.Valid)
    (hrs : pft.enableRS) (hne : af ≠ []) (hfew : pft.chunkCount af * parityBytes < 2 ^ 14) :
    Fits encode pft af := by
  have hl := List.length_pos_iff.mpr hne
  have hchunk : pft.chunkLen af ≤ 207 := (partSize_le hl hv.k_pos).trans hv.k_le
  have hcount : pft.numFragments encode af ≤ pft.chunkLen af + parityBytes :=
    numFragments_le hv hne hrs
  have hsize : pft.fragmentSize encode af ≤ pft.maxPayloadSize af :=
    partSize_le (PFT.length_content_pos hv hne) (PFT.maxPayloadSize_pos hv hne)
  have hmax : pft.maxPayloadSize af ≤ pft.chunkCount af * parityBytes := by
    rw [PFT.maxPayloadSize, if_pos hrs]
    exact Nat.div_le_self _ _
  intro payloads next h
  rw [PFT.protectAndFragment_eq hv hne] at h
  obtain ⟨rfl, -⟩ := Prod.mk.inj (Except.ok.inj h)
  rw [PFT.length_payloads]
  refine ⟨by simp only [parityBytes] at hcount; omega, fun payload hpayload => ?_⟩
  rw [PFT.payloads, if_pos hrs] at hpayload
  rw [length_of_mem_columns hpayload]
  omega

theorem fits_of_length {encode : List UInt8 → Vector UInt8 parityBytes} (hv : pft.Valid)
    (hm : 1 ≤ pft.m.toNat) {afs : List (List UInt8)} (hne : ∀ af ∈ afs, af ≠ [])
    (hlength : ∀ af ∈ afs, af.length ≤ 341 * pft.k.toNat) (n : ℕ) (af : List UInt8)
    (hn : afs[n]? = some af) :
    Fits encode (Mealy.state (PFT.assemble encode) pft (afs.take n)) af := by
  have hne' : ∀ af ∈ afs.take n, af ≠ [] := fun af h => hne af (List.mem_of_mem_take h)
  have hmem := List.mem_of_getElem? hn
  obtain ⟨hk, hm'⟩ := PFT.state_keeps encode hv.k_le hne'
  have hcount : partCount af.length pft.k.toNat ≤ 341 := by
    rw [partCount, ceilDiv_le_iff_le_smul hv.k_pos, smul_eq_mul, Nat.mul_comm]
    exact hlength af hmem
  refine fits_of_chunkCount (state_assemble hv hne').1 ?_ (hne af hmem) ?_
  · rw [PFT.enableRS, hm']
    exact decide_eq_true (UInt32.lt_iff_toNat_lt.mpr hm)
  · rw [PFT.chunkCount, hk, parityBytes]
    omega

theorem restore_of_run_first_lost :
    ∃ codec, rsEncoder = .ok codec ∧ ∃ fragments : List (List UInt8),
      (Mealy.outputs (PFT.assemble (protection codec)) { k := 4, m := 1 }
        [[1, 2, 3], [4, 5, 6, 7, 8]])[1]? = some (.ok fragments) ∧
      restore codec.rsData 1 fragments.tail = some [4, 5, 6, 7, 8] := by
  obtain ⟨codec, hcodec⟩ := exists_rsEncoder
  have hafs : ∀ af ∈ [[1, 2, 3], [4, 5, 6, 7, 8]], af ≠ ([] : List UInt8) := by decide
  have hv : ({ k := 4, m := 1 } : PFT).Valid := ⟨by decide, by decide, by decide⟩
  have hfits (n : ℕ) (af : List UInt8) (hn : [[1, 2, 3], [4, 5, 6, 7, 8]][n]? = some af) :
      Fits (protection codec) (Mealy.state (PFT.assemble (protection codec)) { k := 4, m := 1 }
        ([[1, 2, 3], [4, 5, 6, 7, 8]].take n)) af :=
    fits_of_length hv (by decide) hafs (by decide) n af hn
  obtain ⟨fragments, houtput, -⟩ := outputs_received hv hafs
    (show [[1, 2, 3], [4, 5, 6, 7, 8]][1]? = some [4, 5, 6, 7, 8] from rfl) (hfits 1 _ rfl)
  have hstream : ∀ packet ∈ fragments.tail, ∃ (n : ℕ) (fragments : List (List UInt8)),
      (Mealy.outputs (PFT.assemble (protection codec)) { k := 4, m := 1 }
        [[1, 2, 3], [4, 5, 6, 7, 8]])[n]? = some (.ok fragments) ∧ packet ∈ fragments :=
    fun packet h => ⟨1, fragments, houtput, List.mem_of_mem_tail h⟩
  obtain ⟨fragments', houtput', hrestore⟩ := restore_of_run
    (show PFT.ofConfiguration { chunkLen := 4, fec := 1 } = _ from rfl) (by decide) (by decide)
    (by decide) hcodec hafs (by decide) hfits hstream
    (show [[1, 2, 3], [4, 5, 6, 7, 8]][1]? = some [4, 5, 6, 7, 8] from rfl)
  obtain rfl : fragments = fragments' :=
    Except.ok.inj (Option.some.inj (houtput.symm.trans houtput'))
  refine ⟨codec, hcodec, fragments, houtput, hrestore ?_⟩
  cases fragments with
  | nil => exact Nat.zero_le _
  | cons first rest =>
    have hrest : rest.filter (· ∉ rest) = [] := List.filter_eq_nil_iff.mpr (by simp)
    rw [List.tail_cons, List.filter_cons, hrest]
    split <;> simp

end

end SourceCompanion.Edi
