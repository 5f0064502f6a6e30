import SourceCompanion.Edi.Fragments

/-! # The size of the payloads

Without protection, no payload is larger than 1400 bytes. With it, the bound depends on the number
of chunks only, and what would fit the network is not looked at.
-/

namespace SourceCompanion.Edi

open Bytes Interleave

/-- What a network takes, with a margin for the headers. -/
def mtuPayload : ℕ := 1400

/-- Every payload has a byte and fits the network, and its length leaves the flags beside it
alone. -/
structure PayloadsFit (pft : PFT) (payloads : List (List UInt8)) : Prop where
  pos : ∀ payload ∈ payloads, 1 ≤ payload.length
  le : ∀ payload ∈ payloads, payload.length ≤ mtuPayload
  plen : ∀ payload ∈ payloads,
    (UInt32.ofNat payload.length ||| (if pft.enableRS then 0x8000 else 0) |||
      (if transportHeader then 0x4000 else 0)).toNat =
        payload.length + if pft.enableRS then 2 ^ 15 else 0

/-- The length of the protected block of a packet of `l` bytes in chunks of at most `k`. -/
def blockLength (l k : ℕ) : ℕ := partCount l k * (partSize l k + parityBytes)

/-- The largest payload from which `m` lost fragments can be recovered. -/
def recoverablePayload (l k m : ℕ) : ℕ := partCount l k * parityBytes / (m + 1)

/-- The number of fragments is the same as with the smaller one of both bounds. -/
def FragmentsSuffice (l k m : ℕ) : Prop :=
  partCount (blockLength l k) (recoverablePayload l k m) =
    partCount (blockLength l k) (min (recoverablePayload l k m) mtuPayload)

instance (l k m : ℕ) : Decidable (FragmentsSuffice l k m) := inferInstanceAs (Decidable (_ = _))

namespace PFT

variable {encode : List UInt8 → Vector UInt8 parityBytes} {pft : PFT} {af payload : List UInt8}

theorem length_payload_of_enableRS (hrs : pft.enableRS)
    (h : payload ∈ pft.payloads encode af) : payload.length = pft.fragmentSize encode af := by
  rw [payloads, if_pos hrs] at h
  exact length_of_mem_columns h

/-- A payload takes a byte at least. -/
theorem length_payload_pos (hv : pft.Valid) (hne : af ≠ [])
    (h : payload ∈ pft.payloads encode af) : 1 ≤ payload.length := by
  have hl : 0 < (pft.content encode af).length := length_content_pos hv hne
  have hsize : 0 < pft.fragmentSize encode af := partSize_pos hl (maxPayloadSize_pos hv hne)
  by_cases hrs : pft.enableRS
  · rw [length_payload_of_enableRS hrs h]
    exact hsize
  · rw [payloads, if_neg hrs] at h
    obtain ⟨i, hi, rfl⟩ := List.mem_map.mp h
    have hstart : i * pft.fragmentSize encode af < (pft.content encode af).length :=
      mul_partSize_lt hl (maxPayloadSize_pos hv hne) (List.mem_range.mp hi)
    rw [content, if_neg hrs] at hstart
    rw [List.length_take, List.length_drop]
    omega

theorem length_payload_le (hv : pft.Valid) (hne : af ≠ []) (hrs : ¬ pft.enableRS)
    (h : payload ∈ pft.payloads encode af) : payload.length ≤ mtuPayload := by
  have hle : pft.fragmentSize encode af ≤ pft.maxPayloadSize af :=
    partSize_le (length_content_pos hv hne) (maxPayloadSize_pos hv hne)
  rw [maxPayloadSize, if_neg hrs] at hle
  rw [payloads, if_neg hrs] at h
  obtain ⟨i, -, rfl⟩ := List.mem_map.mp h
  exact (List.length_take_le _ _).trans hle

theorem fragmentSize_eq_partSize (encode : List UInt8 → Vector UInt8 parityBytes) (hv : pft.Valid)
    (hne : af ≠ []) (hrs : pft.enableRS) :
    pft.fragmentSize encode af = partSize (blockLength af.length pft.k.toNat)
      (recoverablePayload af.length pft.k.toNat pft.m.toNat) := by
  have hlength : (pft.content encode af).length = blockLength af.length pft.k.toNat := by
    rw [content_of_pos hrs, length_block hv hne]
    rfl
  have hmax : pft.maxPayloadSize af =
      recoverablePayload af.length pft.k.toNat pft.m.toNat := if_pos hrs
  rw [fragmentSize, hlength, hmax]

theorem fragmentSize_le_iff (encode : List UInt8 → Vector UInt8 parityBytes) (hv : pft.Valid)
    (hne : af ≠ []) (hrs : pft.enableRS) :
    pft.fragmentSize encode af ≤ mtuPayload ↔
      FragmentsSuffice af.length pft.k.toNat pft.m.toNat := by
  have heq := fragmentSize_eq_partSize encode hv hne hrs
  have hblock : 0 < blockLength af.length pft.k.toNat := by
    have hl : 0 < (pft.content encode af).length := length_content_pos hv hne
    rwa [content_of_pos hrs, length_block hv hne] at hl
  have hmax : 0 < recoverablePayload af.length pft.k.toNat pft.m.toNat := by
    have hpos := maxPayloadSize_pos hv hne
    rwa [maxPayloadSize, if_pos hrs] at hpos
  rw [heq, partSize_le_iff hblock hmax (by decide : 0 < mtuPayload), FragmentsSuffice]

/-- The payloads of a packet fit the network, exactly if there is no protection or the bound of the
network needs no more fragments. -/
theorem payloadsFit_iff (encode : List UInt8 → Vector UInt8 parityBytes) (hv : pft.Valid)
    (hne : af ≠ []) :
    (∃ payloads next, protectAndFragment encode pft af = .ok (payloads, next) ∧
      PayloadsFit pft payloads) ↔
      pft.m.toNat = 0 ∨ FragmentsSuffice af.length pft.k.toNat pft.m.toNat := by
  have hoff : pft.m.toNat = 0 ↔ ¬ pft.enableRS :=
    enableRS_eq_false_iff.symm.trans (Bool.not_eq_true _).symm.to_iff
  rw [protectAndFragment_eq hv hne, hoff]
  constructor
  · rintro ⟨payloads, next, ⟨⟩, hfit⟩
    rw [or_iff_not_imp_left, not_not]
    intro hrs
    obtain ⟨payload, hmem⟩ := List.exists_mem_of_length_pos
      (length_payloads ▸ numFragments_pos hv hne : 0 < (pft.payloads encode af).length)
    rw [← fragmentSize_le_iff encode hv hne hrs, ← length_payload_of_enableRS hrs hmem]
    exact hfit.le payload hmem
  · intro h
    have hle (payload : List UInt8) (hmem : payload ∈ pft.payloads encode af) :
        payload.length ≤ mtuPayload := by
      by_cases hrs : pft.enableRS
      · rw [length_payload_of_enableRS hrs hmem, fragmentSize_le_iff encode hv hne hrs]
        exact h.resolve_left (not_not.mpr hrs)
      · exact length_payload_le hv hne hrs hmem
    refine ⟨_, _, rfl, fun payload hmem => length_payload_pos hv hne hmem, hle, ?_⟩
    intro payload hmem
    exact plen_toNat ((hle payload hmem).trans_lt (by decide)) _

theorem payloadsFit_small :
    ({ k := 207, m := 1 } : PFT).Valid ∧ [(0 : UInt8)] ≠ [] ∧
      ∃ payloads next, protectAndFragment (fun _ => Vector.replicate parityBytes 0)
        { k := 207, m := 1 } [0] = .ok (payloads, next) ∧
        PayloadsFit { k := 207, m := 1 } payloads := by
  have hv : ({ k := 207, m := 1 } : PFT).Valid := ⟨by decide, by decide, by decide⟩
  refine ⟨hv, by decide, (payloadsFit_iff _ hv (by decide)).mpr (.inr ?_)⟩
  decide

/-- A packet of 13000 bytes is cut into eleven fragments of 1461 bytes. -/
theorem payload_too_large :
    ({ k := 207, m := 1 } : PFT).Valid ∧
      ∃ payloads next, protectAndFragment (fun _ => Vector.replicate parityBytes 0)
        { k := 207, m := 1 } (List.replicate 13000 0) = .ok (payloads, next) ∧
        (∀ payload ∈ payloads, payload.length = 1461) ∧
        ¬ PayloadsFit { k := 207, m := 1 } payloads := by
  have hv : ({ k := 207, m := 1 } : PFT).Valid := ⟨by decide, by decide, by decide⟩
  obtain ⟨af, haf⟩ : ∃ af : List UInt8, List.replicate 13000 0 = af := ⟨_, rfl⟩
  have hlength : af.length = 13000 := haf ▸ List.length_replicate
  have hne : af ≠ [] := List.ne_nil_of_length_pos (by omega)
  rw [haf]
  refine ⟨hv, _, _, protectAndFragment_eq hv hne, fun payload hmem => ?_, fun hfit => ?_⟩
  · rw [length_payload_of_enableRS rfl hmem, fragmentSize_eq_partSize _ hv hne rfl, hlength]
    decide
  · obtain ⟨payload, hmem⟩ := List.exists_mem_of_length_pos
      (length_payloads.symm ▸ numFragments_pos hv hne)
    have hle := hfit.le payload hmem
    rw [length_payload_of_enableRS rfl hmem, fragmentSize_le_iff _ hv hne rfl, hlength] at hle
    exact absurd hle (by decide)

end PFT

end SourceCompanion.Edi
