import SourceCompanion.Fec.DecodeRs
import SourceCompanion.Fec.Encoded

/-! # Received words

The syndromes of a received word are the power sums of its errors: the places are powers of the
indeterminate, and the weights are the values of the errors.
-/

namespace SourceCompanion.Fec

open Galois Polynomial Syndrome

section

variable {rs : Rs} {g : BitVec 8} [Primitive g] {code data : List UInt8}

/-- The place of a symbol of the whole block, padding included. -/
noncomputable def place (rs : Rs) (g : BitVec 8) [Primitive g] (p : ℕ) : GF g :=
  GF.alpha g ^ (rs.prim * (254 - p))

/-- The error of a received symbol. Padding is not received. -/
def errorAt (rs : Rs) (code data : List UInt8) (p : ℕ) : UInt8 :=
  if rs.pad ≤ p then data.getD (p - rs.pad) 0 ^^^ code.getD (p - rs.pad) 0 else 0

theorem place_ne_zero (p : ℕ) : place rs g p ≠ 0 := pow_ne_zero _ alpha_ne_zero

theorem Codec.injOn_place (h : Codec rs g) : Set.InjOn (place rs g) (Finset.range 255) := by
  intro p hp q hq heq
  simp only [Finset.coe_range, Set.mem_Iio] at hp hq
  simp only [place, pow_mul] at heq
  have : 254 - p = 254 - q := injOn_pow_alpha h.coprime
    (by simp only [Finset.coe_range, Set.mem_Iio]; omega)
    (by simp only [Finset.coe_range, Set.mem_Iio]; omega) heq
  omega

theorem Codec.wordAt_received (h : Codec rs g) (hcode : Codeword rs g code)
    (hlen : data.length = 255 - rs.pad) {i : ℕ} (hi : i < rs.nroots) :
    wordAt g (rootOf rs g i) data =
      ∑ p ∈ Finset.range 255, sym g (errorAt rs code data p) * place rs g p ^ (rs.fcr + i) := by
  have hroom := h.room
  have hpower (j : ℕ) : rootOf rs g i ^ (255 - rs.pad - 1 - j) =
      place rs g (rs.pad + j) ^ (rs.fcr + i) := by
    rw [rootOf, place, ← pow_mul, ← pow_mul, show 254 - (rs.pad + j) = 255 - rs.pad - 1 - j by
      omega]
    congr 1
    ring
  have hdiff : wordAt g (rootOf rs g i) data =
      wordAt g (rootOf rs g i) data + wordAt g (rootOf rs g i) code := by
    rw [hcode.wordAt i hi, add_zero]
  have hpadding : ∑ p ∈ Finset.range rs.pad,
      sym g (errorAt rs code data p) * place rs g p ^ (rs.fcr + i) = 0 :=
    Finset.sum_eq_zero fun p hp => by
      rw [errorAt, if_neg (not_le.mpr (Finset.mem_range.mp hp)), sym_zero, zero_mul]
  have hsplit := Finset.sum_range_add
    (fun p => sym g (errorAt rs code data p) * place rs g p ^ (rs.fcr + i)) rs.pad (255 - rs.pad)
  rw [hpadding, zero_add, show rs.pad + (255 - rs.pad) = 255 by omega] at hsplit
  rw [hdiff, wordAt_eq_sum, wordAt_eq_sum, hlen, hcode.length, ← Finset.sum_add_distrib, hsplit]
  refine Finset.sum_congr rfl fun j _ => ?_
  rw [hpower, errorAt, if_pos (Nat.le_add_right _ _), Nat.add_sub_cancel_left, sym_xor, add_mul]

/-! ## Syndromes -/

theorem Codec.syndromes (h : Codec rs g) (hlen : data.length = 255 - rs.pad) :
    (syndromes rs data).length = rs.nroots ∧ ∀ i < rs.nroots,
      sym g ((Fec.syndromes rs data).getD i 0) = wordAt g (rootOf rs g i) data := by
  have hroom := h.room
  obtain ⟨first, rest, rfl⟩ := List.exists_cons_of_length_pos (show 0 < data.length by omega)
  have hloop (word : List UInt8) :
      let s := word.foldl (syndromeStep rs) (List.replicate rs.nroots first)
      s.length = rs.nroots ∧ ∀ i < rs.nroots,
        sym g (s.getD i 0) = wordAt g (rootOf rs g i) (first :: word) := by
    induction word using List.reverseRecOn with
    | nil =>
      refine ⟨List.length_replicate, fun i hi => ?_⟩
      rw [List.foldl_nil, List.getD_eq_getElem _ _ (by simpa using hi), List.getElem_replicate]
      simp [wordAt, horner]
    | append_singleton word x ih =>
      simp only [List.foldl_concat]
      obtain ⟨hs, hsym⟩ := ih
      refine ⟨by rw [syndromeStep, List.length_mapIdx, hs], fun i hi => ?_⟩
      have hi' : i < (word.foldl (syndromeStep rs) (List.replicate rs.nroots first)).length :=
        hs.symm ▸ hi
      rw [← List.cons_append, wordAt_concat, ← hsym i hi, syndromeStep,
        List.getD_eq_getElem _ _ (by simpa using hi'), List.getElem_mapIdx,
        ← List.getD_eq_getElem _ 0 hi']
      generalize (word.foldl (syndromeStep rs) (List.replicate rs.nroots first)).getD i 0 = y
      by_cases hy : y = 0
      · rw [if_pos hy, hy, sym_zero, zero_mul, zero_add]
      · rw [if_neg hy, sym_xor, h.sym_alpha_modnn, pow_add, (h.index_of_ne_zero hy).2, rootOf,
          add_comm]
  rw [Fec.syndromes, h.nn, List.take_of_length_le hlen.le]
  exact hloop rest

theorem foldl_or_eq_zero_iff (l : List UInt8) (x : UInt8) :
    l.foldl (· ||| ·) x = 0 ↔ x = 0 ∧ ∀ y ∈ l, y = 0 := by
  induction l generalizing x with
  | nil => simp
  | cons y l ih =>
    rw [List.foldl_cons, ih, List.forall_mem_cons, ← and_assoc, UInt8.or_eq_zero_iff]

end

end SourceCompanion.Fec
