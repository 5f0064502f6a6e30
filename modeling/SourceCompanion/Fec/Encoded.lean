import SourceCompanion.Fec.Generator

/-! # Encoded words

A shift register divides the data by the generator polynomial. What remains is the parity, and
the data with their parity vanish at all roots of that polynomial.
-/

namespace SourceCompanion.Fec

open Galois Polynomial Syndrome

/-! ## The encoder -/

def encodeStep (rs : Rs) (parity : List UInt8) (data : UInt8) : List UInt8 :=
  let feedback := rs.index (data ^^^ parity.getD 0 0)
  let parity := if feedback ≠ rs.a0 then
      parity.mapIdx fun j p =>
        if 1 ≤ j then p ^^^ rs.alpha (rs.modnn (feedback + rs.genpoly.getD (rs.nroots - j) 0))
        else p
    else parity
  parity.drop 1 ++
    [if feedback ≠ rs.a0 then rs.alpha (rs.modnn (feedback + rs.genpoly.getD 0 0)) else 0]

def encodeRsChar (rs : Rs) (data : List UInt8) : List UInt8 :=
  (data.take (rs.nn - rs.nroots - rs.pad)).foldl (encodeStep rs) (List.replicate rs.nroots 0)

/-! ## What it sends -/

section

variable {rs : Rs} {g : BitVec 8} [Primitive g]

/-- A string of symbols as a polynomial at a point, the first symbol at the highest power. -/
noncomputable def wordAt (g : BitVec 8) [Primitive g] (β : GF g) (word : List UInt8) : GF g :=
  horner β (word.map (sym g))

theorem wordAt_append (β : GF g) (v w : List UInt8) :
    wordAt g β (v ++ w) = wordAt g β v * β ^ w.length + wordAt g β w := by
  rw [wordAt, List.map_append, horner_append, List.length_map, wordAt, wordAt]

theorem wordAt_concat (β : GF g) (word : List UInt8) (x : UInt8) :
    wordAt g β (word ++ [x]) = wordAt g β word * β + sym g x := by
  rw [wordAt, List.map_append, List.map_singleton, horner_concat, wordAt]

theorem wordAt_eq_sum (β : GF g) (word : List UInt8) : wordAt g β word =
    ∑ j ∈ Finset.range word.length, sym g (word.getD j 0) * β ^ (word.length - 1 - j) := by
  rw [wordAt, horner_eq_sum, List.length_map]
  refine Finset.sum_congr rfl fun j _ => ?_
  rw [← sym_zero g, List.getD_map]

/-- The `i`-th root of the generator polynomial. -/
noncomputable def rootOf (rs : Rs) (g : BitVec 8) [Primitive g] (i : ℕ) : GF g :=
  GF.alpha g ^ ((rs.fcr + i) * rs.prim)

/-- A word of the code: it fills the block and vanishes at the roots. -/
structure Codeword (rs : Rs) (g : BitVec 8) [Primitive g] (word : List UInt8) : Prop where
  length : word.length = 255 - rs.pad
  wordAt : ∀ i < rs.nroots, wordAt g (rootOf rs g i) word = 0

theorem eval_rootOf {i : ℕ} (hi : i < rs.nroots) :
    (generatorOf rs g rs.nroots).eval (rootOf rs g i) = 0 := by
  have := eval_generator (a := GF.alpha g ^ rs.prim) (b := rs.fcr) hi
  rwa [← pow_mul, Nat.mul_comm] at this

variable {parity : List UInt8} {data : UInt8}

@[simp] theorem length_encodeStep (hpos : 1 ≤ parity.length) :
    (encodeStep rs parity data).length = parity.length := by
  simp only [encodeStep]
  split <;> simp <;> omega

theorem Codec.sym_encodeStep (h : Codec rs g) (hlen : parity.length = rs.nroots) {j : ℕ}
    (hj : j < rs.nroots) :
    sym g ((encodeStep rs parity data).getD j 0) = sym g (parity.getD (j + 1) 0) +
      (sym g data + sym g (parity.getD 0 0)) *
        (generatorOf rs g rs.nroots).coeff (rs.nroots - 1 - j) := by
  obtain ⟨first, rest, rfl⟩ := List.exists_cons_of_length_pos
    (show 0 < parity.length by omega)
  have hrest : rest.length + 1 = rs.nroots := hlen
  rw [List.getD_cons_zero, List.getD_cons_succ, ← sym_xor]
  by_cases hzero : data ^^^ first = 0
  · have hindex : rs.index (data ^^^ first) = rs.a0 :=
      h.index_eq_a0_iff.mpr hzero
    have hfed : encodeStep rs (first :: rest) data = rest ++ [0] := by
      simp only [encodeStep, List.getD_cons_zero, hindex, ne_eq, not_true_eq_false, if_false,
        List.drop_succ_cons, List.drop_zero]
    rw [hfed, hzero, sym_zero, zero_mul, add_zero]
    by_cases hlast : j < rest.length
    · rw [List.getD_append _ _ _ _ hlast]
    · rw [List.getD_append_right _ _ _ _ (not_lt.mp hlast), show j - rest.length = 0 by omega,
        List.getD_cons_zero, List.getD_eq_default _ _ (not_lt.mp hlast)]
  · obtain ⟨hlt, hfeedback⟩ := h.index_of_ne_zero hzero
    have hindex : rs.index (data ^^^ first) ≠ rs.a0 :=
      mt h.index_eq_a0_iff.mp hzero
    have hproduct (k : ℕ) (hk : k ≤ rs.nroots) :
        sym g (rs.alpha (rs.modnn (rs.index (data ^^^ first) + rs.genpoly.getD k 0))) =
          sym g (data ^^^ first) * (generatorOf rs g rs.nroots).coeff k := by
      rw [h.sym_alpha_modnn, pow_add, hfeedback, h.genpoly k hk]
    have hfed : encodeStep rs (first :: rest) data = rest.mapIdx (fun i p =>
          p ^^^ rs.alpha (rs.modnn (rs.index (data ^^^ first) +
            rs.genpoly.getD (rs.nroots - (i + 1)) 0))) ++
        [rs.alpha (rs.modnn (rs.index (data ^^^ first) + rs.genpoly.getD 0 0))] := by
      simp only [encodeStep, List.mapIdx_cons, ne_eq, hindex, not_false_eq_true, if_true,
        List.drop_succ_cons, List.drop_zero, Nat.le_add_left, List.getD_cons_zero]
    rw [hfed]
    by_cases hlast : j < rest.length
    · rw [List.getD_append _ _ _ _ (by simpa using hlast),
        List.getD_eq_getElem _ _ (by simpa using hlast), List.getElem_mapIdx, sym_xor,
        hproduct _ (by omega), List.getD_eq_getElem _ _ hlast, Nat.sub_sub, Nat.add_comm 1]
    · rw [List.getD_append_right _ _ _ _ (by simpa using hlast), List.length_mapIdx,
        show j - rest.length = 0 by omega, List.getD_cons_zero, hproduct 0 (Nat.zero_le _),
        List.getD_eq_default _ _ (not_lt.mp hlast), sym_zero, zero_add,
        show rs.nroots - 1 - j = 0 by omega]

/-- The register is the remainder of what has entered it, up to the generator polynomial. -/
theorem Codec.wordAt_encodeStep (h : Codec rs g) (hlen : parity.length = rs.nroots)
    (hpos : 1 ≤ rs.nroots) {β : GF g} (hβ : (generatorOf rs g rs.nroots).eval β = 0) :
    wordAt g β (encodeStep rs parity data) =
      wordAt g β parity * β + sym g data * β ^ rs.nroots := by
  obtain ⟨first, rest, rfl⟩ := List.exists_cons_of_length_pos
    (show 0 < parity.length by omega)
  have hrest : rest.length + 1 = rs.nroots := hlen
  set fb := sym g data + sym g first with hfb
  -- The feedback at a root is the leading term of the generator polynomial.
  have hlead : ∑ j ∈ Finset.range rs.nroots,
      (generatorOf rs g rs.nroots).coeff (rs.nroots - 1 - j) * β ^ (rs.nroots - 1 - j) =
      β ^ rs.nroots := by
    have hmonic := generator_monic (a := GF.alpha g ^ rs.prim) (b := rs.fcr) (n := rs.nroots)
    rw [Monic, leadingCoeff, natDegree_generator] at hmonic
    rw [eval_eq_sum_range, generatorOf, natDegree_generator, Finset.sum_range_succ, hmonic,
      one_mul, CharTwo.add_eq_zero] at hβ
    rw [generatorOf, Finset.sum_range_reflect
      (fun m => (generator (GF.alpha g ^ rs.prim) rs.fcr rs.nroots).coeff m * β ^ m), hβ]
  have hmoved : ∑ j ∈ Finset.range rs.nroots, sym g ((first :: rest).getD (j + 1) 0) *
      β ^ (rs.nroots - 1 - j) = wordAt g β rest * β := by
    have := wordAt_eq_sum β (rest ++ [0])
    rw [wordAt_concat, sym_zero, add_zero, List.length_append, List.length_singleton, hrest]
      at this
    rw [this]
    refine Finset.sum_congr rfl fun j hj => ?_
    rw [List.getD_cons_succ]
    by_cases hlast : j < rest.length
    · rw [List.getD_append _ _ _ _ hlast]
    · have hj' := Finset.mem_range.mp hj
      rw [List.getD_append_right _ _ _ _ (not_lt.mp hlast), show j - rest.length = 0 by omega,
        List.getD_cons_zero, List.getD_eq_default _ _ (not_lt.mp hlast)]
  calc wordAt g β (encodeStep rs (first :: rest) data)
      = ∑ j ∈ Finset.range rs.nroots, (sym g ((first :: rest).getD (j + 1) 0) +
          fb * (generatorOf rs g rs.nroots).coeff (rs.nroots - 1 - j)) *
            β ^ (rs.nroots - 1 - j) := by
        rw [wordAt_eq_sum, length_encodeStep (by simp), hlen]
        refine Finset.sum_congr rfl fun j hj => ?_
        rw [h.sym_encodeStep hlen (Finset.mem_range.mp hj), List.getD_cons_zero]
    _ = wordAt g β rest * β + fb * β ^ rs.nroots := by
        rw [← hlead, Finset.mul_sum, ← hmoved, ← Finset.sum_add_distrib]
        exact Finset.sum_congr rfl fun j _ => by ring
    _ = wordAt g β (first :: rest) * β + sym g data * β ^ rs.nroots := by
        have hcons := wordAt_append β [first] rest
        rw [List.singleton_append] at hcons
        have hfirst : wordAt g β [first] = sym g first := by simp [wordAt, horner]
        rw [hcons, hfirst, hfb, ← hrest, pow_succ]
        ring

end

section

variable {rs : Rs} {g : BitVec 8} [Primitive g] {data : List UInt8}

theorem Codec.encodeRsChar (h : Codec rs g) (hpos : 1 ≤ rs.nroots)
    (hlen : data.length = 255 - rs.nroots - rs.pad) :
    (encodeRsChar rs data).length = rs.nroots ∧ ∀ i < rs.nroots,
      wordAt g (rootOf rs g i) (Fec.encodeRsChar rs data) =
        wordAt g (rootOf rs g i) data * rootOf rs g i ^ rs.nroots := by
  have hloop (word : List UInt8) :
      let parity := word.foldl (encodeStep rs) (List.replicate rs.nroots 0)
      parity.length = rs.nroots ∧ ∀ i < rs.nroots, wordAt g (rootOf rs g i) parity =
        wordAt g (rootOf rs g i) word * rootOf rs g i ^ rs.nroots := by
    induction word using List.reverseRecOn with
    | nil =>
      refine ⟨List.length_replicate, fun i _ => ?_⟩
      rw [wordAt_eq_sum, wordAt, List.map_nil, horner_nil, zero_mul]
      exact Finset.sum_eq_zero fun j _ => by simp
    | append_singleton word x ih =>
      obtain ⟨hparity, hwordAt⟩ := ih
      simp only [List.foldl_concat]
      refine ⟨(length_encodeStep (hparity.symm ▸ hpos)).trans hparity, fun i hi => ?_⟩
      rw [h.wordAt_encodeStep hparity hpos (eval_rootOf hi), hwordAt i hi, wordAt_concat]
      ring
  rw [Fec.encodeRsChar, h.nn, List.take_of_length_le hlen.le]
  exact hloop data

theorem Codec.codeword (h : Codec rs g) (hpos : 1 ≤ rs.nroots)
    (hlen : data.length = 255 - rs.nroots - rs.pad) :
    Codeword rs g (data ++ Fec.encodeRsChar rs data) := by
  obtain ⟨hparity, hwordAt⟩ := h.encodeRsChar hpos hlen
  have hroom := h.room
  refine ⟨by rw [List.length_append, hparity]; omega, fun i hi => ?_⟩
  rw [wordAt_append, hparity, hwordAt i hi]
  exact CharTwo.add_self_eq_zero _

end

end SourceCompanion.Fec
