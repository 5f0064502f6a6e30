import Mathlib.Tactic.IntervalCases
import SourceCompanion.Edi.PFT

/-! # Lost fragments

The interleaving spreads the bytes of a chunk evenly over the fragments, and there are enough
fragments for `m` lost ones to take no more bytes of a chunk than it has parity bytes.
-/

namespace SourceCompanion.Edi

open Interleave

def survivingChunk (fragments : List (List UInt8)) (lost : Finset ℕ) (rsK q : ℕ) :
    List (Option UInt8) :=
  (List.range' (q * (rsK + parityBytes)) (rsK + parityBytes)).map
    (at? fragments.length fun i => if i ∈ lost then none else fragments[i]?)

section Share

variable {encode : List UInt8 → Vector UInt8 parityBytes} {pft : PFT} {af : List UInt8}

/-- A fragment holds at most its share of the parity bytes of a chunk. -/
theorem chunk_mul_le (hv : pft.Valid) (hne : af ≠ []) (hrs : pft.enableRS) :
    (pft.chunkLen af + parityBytes) * (pft.m.toNat + 1) ≤
      pft.numFragments encode af * parityBytes := by
  have hc := PFT.chunkCount_pos hv hne
  have hcover : (pft.content encode af).length ≤
      pft.maxPayloadSize af * pft.numFragments encode af :=
    le_smul_ceilDiv (PFT.maxPayloadSize_pos hv hne)
  have hmax : pft.maxPayloadSize af * (pft.m.toNat + 1) ≤ pft.chunkCount af * parityBytes := by
    rw [PFT.maxPayloadSize, if_pos hrs]
    exact Nat.div_mul_le_self _ _
  rw [PFT.content_of_pos hrs, PFT.length_block hv hne] at hcover
  refine Nat.le_of_mul_le_mul_left ?_ hc
  calc pft.chunkCount af * ((pft.chunkLen af + parityBytes) * (pft.m.toNat + 1))
      = pft.chunkCount af * (pft.chunkLen af + parityBytes) * (pft.m.toNat + 1) := by ring
    _ ≤ pft.maxPayloadSize af * pft.numFragments encode af * (pft.m.toNat + 1) :=
        Nat.mul_le_mul_right _ hcover
    _ = pft.numFragments encode af * (pft.maxPayloadSize af * (pft.m.toNat + 1)) := by ring
    _ ≤ pft.numFragments encode af * (pft.chunkCount af * parityBytes) :=
        Nat.mul_le_mul_left _ hmax
    _ = pft.chunkCount af * (pft.numFragments encode af * parityBytes) := by ring

theorem share_le (hv : pft.Valid) (hne : af ≠ []) (hrs : pft.enableRS) :
    (pft.chunkLen af + parityBytes) ⌈/⌉ pft.numFragments encode af ≤
      parityBytes ⌈/⌉ (pft.m.toNat + 1) := by
  have hparity : parityBytes ≤ (pft.m.toNat + 1) * (parityBytes ⌈/⌉ (pft.m.toNat + 1)) :=
    le_smul_ceilDiv (Nat.succ_pos _)
  rw [ceilDiv_le_iff_le_smul (PFT.numFragments_pos hv hne), smul_eq_mul]
  refine Nat.le_of_mul_le_mul_left ?_ (Nat.succ_pos pft.m.toNat)
  calc (pft.m.toNat + 1) * (pft.chunkLen af + parityBytes)
      ≤ pft.numFragments encode af * parityBytes := by
        rw [Nat.mul_comm]
        exact chunk_mul_le hv hne hrs
    _ ≤ pft.numFragments encode af *
          ((pft.m.toNat + 1) * (parityBytes ⌈/⌉ (pft.m.toNat + 1))) :=
        Nat.mul_le_mul_left _ hparity
    _ = (pft.m.toNat + 1) *
          (pft.numFragments encode af * (parityBytes ⌈/⌉ (pft.m.toNat + 1))) := by ring

theorem shares_le {m : ℕ} (hm : 1 ≤ m) (hm' : m ≤ 5) :
    m * (parityBytes ⌈/⌉ (m + 1)) ≤ parityBytes := by
  interval_cases m <;> decide

end Share

section Loss

variable {encode : List UInt8 → Vector UInt8 parityBytes} {pft : PFT} {af : List UInt8}
  {lost : Finset ℕ} {q j : ℕ}

theorem at?_surviving (hv : pft.Valid) (hne : af ≠ []) (hrs : pft.enableRS) {p : ℕ}
    (hp : p < (pft.block encode af).length) :
    at? (pft.numFragments encode af)
        (fun i => if i ∈ lost then none else (pft.payloads encode af)[i]?) p =
      if p % pft.numFragments encode af ∈ lost then none else (pft.block encode af)[p]? := by
  split
  · simp [at?, *]
  · have hle : (pft.content encode af).length ≤ _ := PFT.length_content_le hv hne
    rw [PFT.content_of_pos hrs] at hle
    rw [at?_columns (hp.trans_le hle) (by rw [if_neg ‹_›, PFT.payloads, if_pos hrs]),
      List.getD_eq_getElem?_getD, List.getElem?_eq_getElem hp, Option.getD_some]

theorem lt_length_block (hv : pft.Valid) (hne : af ≠ []) (hq : q < pft.chunkCount af) {p : ℕ}
    (hp : p < q * (pft.chunkLen af + parityBytes) + (pft.chunkLen af + parityBytes)) :
    p < (pft.block encode af).length := by
  rw [PFT.length_block hv hne]
  rw [← Nat.succ_mul] at hp
  exact hp.trans_le (Nat.mul_le_mul_right _ hq)

theorem getElem?_survivingChunk (hv : pft.Valid) (hne : af ≠ []) (hrs : pft.enableRS)
    (hq : q < pft.chunkCount af) {b : UInt8}
    (hb : (survivingChunk (pft.payloads encode af) lost (pft.chunkLen af) q)[j]? =
      some (some b)) :
    (pft.block encode af)[q * (pft.chunkLen af + parityBytes) + j]? = some b := by
  have hj : j < pft.chunkLen af + parityBytes := by
    simpa [survivingChunk] using (List.getElem?_eq_some_iff.mp hb).1
  have hp : q * (pft.chunkLen af + parityBytes) + j < (pft.block encode af).length :=
    lt_length_block hv hne hq (Nat.add_lt_add_left hj _)
  rw [survivingChunk, List.getElem?_map, List.getElem?_range' hj, Nat.one_mul, Option.map_some,
    PFT.length_payloads, at?_surviving hv hne hrs hp] at hb
  obtain hb := Option.some.inj hb
  split at hb
  · cases hb
  · exact hb

theorem count_none_le (hv : pft.Valid) (hne : af ≠ []) (hrs : pft.enableRS)
    (hq : q < pft.chunkCount af) :
    (survivingChunk (pft.payloads encode af) lost (pft.chunkLen af) q).count none ≤
      lost.card * ((pft.chunkLen af + parityBytes) ⌈/⌉ pft.numFragments encode af) := by
  refine le_trans ?_ (countP_columns_le (PFT.numFragments_pos hv hne)
    (q * (pft.chunkLen af + parityBytes)) (pft.chunkLen af + parityBytes) lost)
  rw [survivingChunk, List.count_eq_countP, List.countP_map]
  refine List.countP_mono_left fun p hp hnone => ?_
  have hp' : p < (pft.block encode af).length :=
    lt_length_block hv hne hq (List.mem_range'_1.mp hp).2
  simp only [Function.comp, PFT.length_payloads, at?_surviving hv hne hrs hp', beq_iff_eq]
    at hnone
  split at hnone
  · exact decide_eq_true ‹_›
  · rw [List.getElem?_eq_getElem hp'] at hnone
    cases hnone

/-- Losing up to `m` fragments costs no chunk more bytes than it has parity bytes, and the
bytes that are left are those of the chunk. -/
theorem lost_le_parityBytes (hk : 1 ≤ pft.k) (hk' : pft.k ≤ 207) (hm : 1 ≤ pft.m)
    (hm' : pft.m ≤ 5) (hne : af ≠ []) :
    ∃ (block : List UInt8) (fragments : List (List UInt8)) (next : PFT) (rsK : ℕ),
      pft.protect encode af = .ok (block, next) ∧
      pft.protectAndFragment encode af = .ok (fragments, next) ∧
      ceilDiv af.length next.numChunks = .ok rsK ∧
      block.length = next.numChunks * (rsK + parityBytes) ∧
      ∀ lost : Finset ℕ, lost ⊆ Finset.range fragments.length → lost.card ≤ pft.m.toNat →
        ∀ q < next.numChunks,
          (survivingChunk fragments lost rsK q).count none ≤ parityBytes ∧
          ∀ (j : ℕ) (b : UInt8), (survivingChunk fragments lost rsK q)[j]? = some (some b) →
            block[q * (rsK + parityBytes) + j]? = some b := by
  have hm₁ : 1 ≤ pft.m.toNat := hm
  have hm₅ : pft.m.toNat ≤ 5 := hm'
  have hv : pft.Valid := ⟨hk, hk', by omega⟩
  have hrs : pft.enableRS := decide_eq_true (UInt32.lt_iff_toNat_lt.mpr hm₁)
  refine ⟨pft.block encode af, pft.payloads encode af, { pft with numChunks := pft.chunkCount af },
    pft.chunkLen af, PFT.protect_eq hv hne, ?_,
    PFT.ceilDiv_of_pos (PFT.chunkCount_pos hv hne),
    PFT.length_block hv hne, ?_⟩
  · rw [PFT.protectAndFragment_eq hv hne, PFT.counted, if_pos hrs]
  · intro lost _ hcard q hq
    refine ⟨?_, fun j b hb => getElem?_survivingChunk hv hne hrs hq hb⟩
    calc (survivingChunk (pft.payloads encode af) lost (pft.chunkLen af) q).count none
        ≤ lost.card * ((pft.chunkLen af + parityBytes) ⌈/⌉ pft.numFragments encode af) :=
          count_none_le hv hne hrs hq
      _ ≤ pft.m.toNat * (parityBytes ⌈/⌉ (pft.m.toNat + 1)) :=
          Nat.mul_le_mul hcard (share_le hv hne hrs)
      _ ≤ parityBytes := shares_le hm₁ hm₅

theorem lost_le_parityBytes_two_lost :
    ∃ (block : List UInt8) (fragments : List (List UInt8)) (next : PFT) (rsK : ℕ),
      PFT.protect (fun _ => Vector.replicate parityBytes 0) { k := 3, m := 2 } [1, 2, 3, 4, 5] =
        .ok (block, next) ∧
      PFT.protectAndFragment (fun _ => Vector.replicate parityBytes 0) { k := 3, m := 2 }
        [1, 2, 3, 4, 5] = .ok (fragments, next) ∧
      ceilDiv 5 next.numChunks = .ok rsK ∧
      block.length = next.numChunks * (rsK + parityBytes) ∧
      ∀ lost : Finset ℕ, lost ⊆ Finset.range fragments.length → lost.card ≤ 2 →
        ∀ q < next.numChunks,
          (survivingChunk fragments lost rsK q).count none ≤ parityBytes ∧
          ∀ (j : ℕ) (b : UInt8), (survivingChunk fragments lost rsK q)[j]? = some (some b) →
            block[q * (rsK + parityBytes) + j]? = some b :=
  lost_le_parityBytes (by decide) (by decide) (by decide) (by decide) (by decide)

end Loss

end SourceCompanion.Edi
