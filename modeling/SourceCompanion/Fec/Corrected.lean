import SourceCompanion.Fec.Frame

/-! # Correcting errors and erasures

The decoder evaluates the errors at the places it found and takes them out. Twice the number of
errors and the number of erasures together must not exceed the number of roots.
-/

namespace SourceCompanion.Fec

open Galois Polynomial Syndrome

section

variable {rs : Rs} {g : BitVec 8} [Primitive g]

/-! ## Evaluating -/

theorem Tabulates.sym_evaluate (h : Tabulates rs g) (p : List ℕ) (terms : List (ℕ × ℕ))
    (root : ℕ) : sym g (evaluate rs p terms root) =
      (terms.map fun t => value g (p.getD t.1 rs.a0) * (GF.alpha g ^ root) ^ t.2).sum := by
  rw [evaluate, sym_foldl_xor, sym_zero, zero_add]
  refine congrArg List.sum (List.map_congr_left fun t _ => ?_)
  split
  · rw [h.sym_alpha_modnn, pow_add, h.value_of_ne ‹_›, ← pow_mul, Nat.mul_comm root]
  · rw [(h.value_eq_zero_iff).mpr (not_not.mp ‹_›), zero_mul]

theorem Tabulates.errorEvaluator (h : Tabulates rs g) {s lambda : List ℕ}
    {t : PowerSeries (GF g)} (hs : Starts rs g s t) {p : (GF g)[X]}
    (hlambda : HoldsLog rs g lambda p) {deg i : ℕ} (hdeg : deg ≤ rs.nroots) (hi : i < deg) :
    value g ((errorEvaluator rs s lambda deg).getD i rs.a0) =
      PowerSeries.coeff i ((p : PowerSeries (GF g)) * t) := by
  rw [Fec.errorEvaluator, List.getD_eq_getElem _ _ (by simpa using hi), List.getElem_map,
    List.getElem_range, h.value_index]
  simp only [addProduct]
  rw [sym_foldl_xor, sym_zero, zero_add, sum_map_range_reverse, PowerSeries.coeff_mul,
    Finset.Nat.sum_antidiagonal_eq_sum_range_succ_mk]
  refine Finset.sum_congr rfl fun j hj => ?_
  have hj' := Finset.mem_range.mp hj
  rw [h.product, hs (i - j) (by omega), hlambda, coeff_coe, mul_comm]

theorem Tabulates.quotient (h : Tabulates rs g) {a b c : UInt8} (ha : a ≠ 0) (hb : b ≠ 0)
    (hc : c ≠ 0) :
    sym g (rs.alpha (rs.modnn (rs.index a + rs.index b + rs.nn - rs.index c))) =
      sym g a * sym g b / sym g c := by
  obtain ⟨hlt, hpow⟩ := h.index_of_ne_zero hc
  rw [h.sym_alpha_modnn, h.nn, eq_div_iff (mt sym_eq_zero_iff.mp hc), ← hpow, ← pow_add,
    ← (h.index_of_ne_zero ha).2, ← (h.index_of_ne_zero hb).2, ← pow_add, GF.alpha_pow_eq_iff,
    Nat.sub_add_cancel (by omega)]
  exact Nat.add_mod_right _ 255

/-! ## The value of an error -/

/-- What the decoder knows of the places: their locator, and the syndromes as power sums. -/
structure Knows (rs : Rs) (g : BitVec 8) [Primitive g] (places : Finset ℕ) (err : ℕ → UInt8)
    (s lambda : List ℕ) : Prop where
  lt : ∀ p ∈ places, p < 255
  card_le : places.card ≤ rs.nroots
  lambda : HoldsLog rs g lambda (locator (placesOf rs g places))
  starts : Starts rs g s (PowerSeries.mk (powerSum (placesOf rs g places)
    (weightAt places (place rs g) fun p => sym g (err p) * place rs g p ^ rs.fcr)))

variable {places : Finset ℕ} {err : ℕ → UInt8} {s lambda : List ℕ}

theorem Codec.injOn_of_knows (h : Codec rs g) (hk : Knows rs g places err s lambda) :
    Set.InjOn (place rs g) places :=
  h.injOn_place.mono fun p hp => by simpa using hk.lt p hp

theorem zero_notMem_placesOf : 0 ∉ placesOf rs g places := fun h => by
  obtain ⟨p, -, hp⟩ := Finset.mem_image.mp h
  exact place_ne_zero p hp

theorem Codec.card_placesOf (h : Codec rs g) (hlt : ∀ p ∈ places, p < 255) :
    (placesOf rs g places).card = places.card :=
  Finset.card_image_of_injOn (h.injOn_place.mono fun p hp => by simpa using hlt p hp)

/-- The symbols that the source calls `num1`, `num2` and `den`, for a root and its position. -/
theorem Codec.forney (h : Codec rs g) (hk : Knows rs g places err s lambda) {root p : ℕ}
    (hp : p ∈ places) (hroot : root ≤ 255) (hplace : GF.alpha g ^ root = (place rs g p)⁻¹) :
    let deg := places.card
    let omega := errorEvaluator rs s lambda deg
    let num1 := evaluate rs omega ((List.range deg).reverse.map fun i => (i, i)) root
    let num2 := rs.alpha (rs.modnn (root * rs.fcr + rs.nn - root))
    let den := evaluate rs lambda
      ((List.range (min deg (rs.nroots - 1) / 2 + 1)).reverse.map fun i => (2 * i + 1, 2 * i)) root
    num2 ≠ 0 ∧ den ≠ 0 ∧ sym g num1 * sym g num2 / sym g den = sym g (err p) := by
  intro deg omega num1 num2 den
  set E := placesOf rs g places with hE
  set z := weightAt places (place rs g) fun p => sym g (err p) * place rs g p ^ rs.fcr with hz
  set x := place rs g p with hx
  have hx₀ : x ≠ 0 := place_ne_zero p
  have h₀ : 0 ∉ E := zero_notMem_placesOf
  have hxE : x ∈ E := Finset.mem_image_of_mem _ hp
  have hcard : E.card = deg := h.card_placesOf hk.lt
  have hnum1 : sym g num1 = (evaluator E z).eval x⁻¹ := by
    have hdegree : (evaluator E z).natDegree < deg := hcard ▸ natDegree_evaluator_lt ⟨x, hxE⟩
    rw [h.sym_evaluate, List.map_map, hplace, eval_eq_sum_range' hdegree]
    simp only [Function.comp_def]
    rw [sum_map_range_reverse]
    refine Finset.sum_congr rfl fun i hi => ?_
    rw [h.errorEvaluator hk.starts hk.lambda hk.card_le (Finset.mem_range.mp hi),
      locator_mul_powerSum, coeff_coe]
  have hnum2 : sym g num2 = x⁻¹ ^ rs.fcr * x := by
    have hshift : GF.alpha g ^ (root * rs.fcr + 255 - root) * GF.alpha g ^ root =
        GF.alpha g ^ (root * rs.fcr) := by
      rw [← pow_add, Nat.sub_add_cancel (by omega), GF.alpha_pow_eq_iff]
      exact Nat.add_mod_right _ 255
    rw [h.sym_alpha_modnn, h.nn, ← hplace, ← pow_mul, ← hshift, mul_assoc, hplace,
      inv_mul_cancel₀ hx₀, mul_one]
  have hden : sym g den = (derivative (locator E)).eval x⁻¹ := by
    have hdegree : (locator E).natDegree ≤ 2 * (min deg (rs.nroots - 1) / 2 + 1) := by
      have hle := natDegree_locator_le E
      have hroots : deg ≤ rs.nroots := hk.card_le
      omega
    rw [h.sym_evaluate, List.map_map, hplace, eval_derivative_eq (Nat.succ_pos _) hdegree]
    simp only [Function.comp_def]
    rw [sum_map_range_reverse]
    exact Finset.sum_congr rfl fun i _ => by rw [hk.lambda]
  have hden₀ : (derivative (locator E)).eval x⁻¹ ≠ 0 := by
    rw [eval_inv_derivative_locator h₀ hxE]
    exact mul_ne_zero (neg_ne_zero.mpr hx₀) (eval_inv_locator_erase_ne_zero h₀ hxE)
  have hweight := weight_eq (z := z) h₀ hxE
  rw [hz, weightAt_apply (h.injOn_of_knows hk) hp, ← hz, ← hx, CharTwo.neg_eq] at hweight
  refine ⟨?_, ?_, ?_⟩
  · rw [ne_eq, ← sym_eq_zero_iff (g := g), hnum2]
    exact mul_ne_zero (pow_ne_zero _ (inv_ne_zero hx₀)) hx₀
  · rw [ne_eq, ← sym_eq_zero_iff (g := g), hden]
    exact hden₀
  · calc sym g num1 * sym g num2 / sym g den
        = x * (evaluator E z).eval x⁻¹ / (derivative (locator E)).eval x⁻¹ * x⁻¹ ^ rs.fcr := by
          rw [hnum1, hnum2, hden]
          ring
      _ = sym g (err p) := by
          rw [← hweight, mul_assoc, ← mul_pow, mul_inv_cancel₀ hx₀, one_pow, mul_one]

/-! ## Taking the errors out -/

/-- A root that the search found, with its position. -/
def Found (rs : Rs) (g : BitVec 8) [Primitive g] (places : Finset ℕ) (found : ℕ × ℕ) : Prop :=
  found.1 ≤ 255 ∧ found.2 ∈ places ∧ GF.alpha g ^ found.1 = (place rs g found.2)⁻¹

theorem Codec.applyError (h : Codec rs g) (hk : Knows rs g places err s lambda)
    {found : ℕ × ℕ} (hfound : Found rs g places found) {data : List UInt8}
    (hlen : data.length = 255 - rs.pad) :
    let after :=
      applyError rs lambda (errorEvaluator rs s lambda places.card) places.card data found
    after.length = 255 - rs.pad ∧ ∀ j < 255 - rs.pad,
      after.getD j 0 = data.getD j 0 ^^^ if found.2 = rs.pad + j then err (rs.pad + j) else 0 := by
  intro after
  obtain ⟨hroot, hp, hplace⟩ := hfound
  obtain ⟨hnum2, hden, herr⟩ := h.forney hk hp hroot hplace
  have hlt := hk.lt _ hp
  simp only [after, Fec.applyError]
  split
  · rename_i hnum1
    have hvalue := sym_injective g ((h.quotient hnum1.1 hnum2 hden).trans herr)
    refine ⟨by rw [List.length_set, hlen], fun j hj => ?_⟩
    rw [getD_set, hvalue, hlen]
    by_cases heq : found.2 = rs.pad + j
    · rw [if_pos ⟨by omega, hj⟩, if_pos heq, heq, Nat.add_sub_cancel_left]
    · rw [if_neg fun h => heq (by omega), if_neg heq, UInt8.xor_zero]
  · rename_i hnum1
    refine ⟨hlen, fun j _ => ?_⟩
    by_cases heq : found.2 = rs.pad + j
    · -- No error is found where there is none.
      have hzero : err found.2 = 0 := by
        rw [not_and_or, not_not] at hnum1
        rw [hnum1.resolve_right (by omega), sym_zero, zero_mul, zero_div, eq_comm,
          sym_eq_zero_iff] at herr
        exact herr
      rw [if_pos heq, ← heq, hzero, UInt8.xor_zero]
    · rw [if_neg heq, UInt8.xor_zero]

theorem Codec.applyErrors (h : Codec rs g) (hk : Knows rs g places err s lambda)
    (found : List (ℕ × ℕ)) (hfound : ∀ f ∈ found, Found rs g places f)
    (hnodup : (found.map (·.2)).Nodup) {data : List UInt8} (hlen : data.length = 255 - rs.pad) :
    let after := found.foldl
      (Fec.applyError rs lambda (Fec.errorEvaluator rs s lambda places.card) places.card) data
    after.length = 255 - rs.pad ∧ ∀ j < 255 - rs.pad, after.getD j 0 =
      data.getD j 0 ^^^ if rs.pad + j ∈ found.map (·.2) then err (rs.pad + j) else 0 := by
  induction found generalizing data with
  | nil => exact ⟨hlen, fun j _ => by simp⟩
  | cons first found ih =>
    obtain ⟨hfirst, hrest⟩ := List.nodup_cons.mp hnodup
    obtain ⟨hlen', hget⟩ := h.applyError hk (hfound first List.mem_cons_self) hlen
    obtain ⟨hlen'', hget'⟩ := ih (fun f hf => hfound f (List.mem_cons_of_mem _ hf)) hrest hlen'
    refine ⟨hlen'', fun j hj => ?_⟩
    rw [List.foldl_cons, hget' j hj, hget j hj, UInt8.xor_assoc]
    congr 1
    by_cases heq : first.2 = rs.pad + j
    · have hmem : first.2 ∈ (first :: found).map (·.2) := List.mem_cons_self
      rw [← heq, if_pos rfl, if_neg hfirst, UInt8.xor_zero, if_pos hmem]
    · rw [if_neg heq, UInt8.zero_xor]
      simp only [List.map_cons, List.mem_cons, Ne.symm heq, false_or]

/-! ## The decoder -/

/-- The positions of the received symbols that are wrong, padding counted. -/
def errorPositions (rs : Rs) (code data : List UInt8) : Finset ℕ :=
  (Finset.range 255).filter fun p => errorAt rs code data p ≠ 0

variable {code data : List UInt8} {erasPos : List ℕ}

theorem mem_errorPositions {p : ℕ} :
    p ∈ errorPositions rs code data ↔ p < 255 ∧ errorAt rs code data p ≠ 0 := by
  rw [errorPositions, Finset.mem_filter, Finset.mem_range]

theorem Codec.powerSum_errors (h : Codec rs g) (hlt : ∀ p ∈ places, p < 255)
    (hcover : errorPositions rs code data ⊆ places) (j : ℕ) :
    powerSum (placesOf rs g places) (weightAt places (place rs g) fun p =>
        sym g (errorAt rs code data p) * place rs g p ^ rs.fcr) j =
      ∑ p ∈ Finset.range 255, sym g (errorAt rs code data p) * place rs g p ^ (rs.fcr + j) := by
  have hsub : places ⊆ Finset.range 255 := fun p hp => Finset.mem_range.mpr (hlt p hp)
  rw [placesOf, powerSum_image (h.injOn_place.mono (by exact_mod_cast hsub))]
  simp only [mul_assoc, ← pow_add]
  refine Finset.sum_subset hsub fun p hp hout => ?_
  have hzero : errorAt rs code data p = 0 := by
    by_contra hne
    exact hout (hcover (mem_errorPositions.mpr ⟨Finset.mem_range.mp hp, hne⟩))
  rw [hzero, sym_zero, zero_mul]

theorem Codec.starts (h : Codec rs g) (hcode : Codeword rs g code)
    (hlen : data.length = 255 - rs.pad) (hlt : ∀ p ∈ places, p < 255)
    (hcover : errorPositions rs code data ⊆ places) :
    Starts rs g ((Fec.syndromes rs data).map rs.index) (PowerSeries.mk (powerSum
      (placesOf rs g places) (weightAt places (place rs g) fun p =>
        sym g (errorAt rs code data p) * place rs g p ^ rs.fcr))) := by
  intro i hi
  have hzero : rs.a0 = rs.index 0 := (h.index_eq_a0_iff.mpr rfl).symm
  rw [hzero, List.getD_map, h.value_index, (h.syndromes hlen).2 i hi,
    h.wordAt_received hcode hlen hi, PowerSeries.coeff_mk, h.powerSum_errors hlt hcover]

theorem Codec.knows (h : Codec rs g) (hcode : Codeword rs g code)
    (hlen : data.length = 255 - rs.pad) (hnodup : erasPos.Nodup)
    (hlt : ∀ p ∈ erasPos, p < 255)
    (hfew : 2 * (errorPositions rs code data \ erasPos.toFinset).card + erasPos.length ≤
      rs.nroots) :
    let s := (Fec.syndromes rs data).map rs.index
    Knows rs g (errorPositions rs code data ∪ erasPos.toFinset) (errorAt rs code data) s
      ((Fec.berlekampMassey rs s erasPos).lambda.map rs.index) := by
  intro s
  set errors := errorPositions rs code data with herrors
  set erased := erasPos.toFinset with herased
  have hltErrors : ∀ p ∈ errors, p < 255 := fun p hp => (mem_errorPositions.mp hp).1
  have hltAll : ∀ p ∈ errors ∪ erased, p < 255 := fun p hp =>
    (Finset.mem_union.mp hp).elim (hltErrors p) fun hp => hlt p (List.mem_toFinset.mp hp)
  have hinj : Set.InjOn (place rs g) (errors ∪ erased : Finset ℕ) :=
    h.injOn_place.mono fun p hp => by simpa using hltAll p hp
  have hcard : erased.card = erasPos.length := List.toFinset_card_of_nodup hnodup
  have hunion := Finset.card_sdiff_add_card errors erased
  refine ⟨hltAll, by omega, ?_, h.starts hcode hlen hltAll Finset.subset_union_left⟩
  have hmatches := h.berlekampMassey (h.starts hcode hlen hltErrors (subset_refl errors))
    (by omega) hnodup hlt
  have hholds := h.holdsLog hmatches.lambda
  have hplaces : placesOf rs g errors \ placesOf rs g erased = placesOf rs g (errors \ erased) := by
    have := Finset.image_sdiff_of_injOn hinj Finset.subset_union_right
    rw [Finset.image_union, Finset.union_sdiff_right, Finset.union_sdiff_right] at this
    exact this.symm
  have hz : ∀ x ∈ placesOf rs g errors, weightAt errors (place rs g)
      (fun p => sym g (errorAt rs code data p) * place rs g p ^ rs.fcr) x ≠ 0 := by
    intro x hx
    obtain ⟨p, hp, rfl⟩ := Finset.mem_image.mp hx
    rw [weightAt_apply (hinj.mono (by simp)) hp]
    exact mul_ne_zero (mt sym_eq_zero_iff.mp (mem_errorPositions.mp hp).2)
      (pow_ne_zero _ (place_ne_zero p))
  have hfew' : 2 * (placesOf rs g errors \ placesOf rs g erased).card ≤
      rs.nroots - erasPos.length := by
    rw [hplaces, h.card_placesOf fun p hp => hltErrors p (Finset.mem_sdiff.mp hp).1]
    omega
  rw [recurrence_eq_locator zero_notMem_placesOf hz hfew', placesOf, placesOf,
    ← Finset.image_union] at hholds
  exact hholds

/-! ## The positions found -/

theorem Codec.exists_locOf (h : Codec rs g) {p : ℕ} (hp : p < 255) :
    ∃ i ∈ List.range' 1 255, locOf rs i = p := by
  have hinj : Set.InjOn (locOf rs) (List.range' 1 255).toFinset := fun i hi j hj =>
    h.locOf_injOn (by simpa using hi) (by simpa using hj)
  have hsub : (List.range' 1 255).toFinset.image (locOf rs) ⊆ Finset.range 255 := fun q hq => by
    obtain ⟨i, -, rfl⟩ := Finset.mem_image.mp hq
    exact Finset.mem_range.mpr (locOf_lt rs i)
  have hall := Finset.eq_of_subset_of_card_le hsub (by
    rw [Finset.card_image_of_injOn hinj, List.toFinset_card_of_nodup List.nodup_range',
      List.length_range', Finset.card_range])
  obtain ⟨i, hi, hloc⟩ := Finset.mem_image.mp (hall.symm ▸ Finset.mem_range.mpr hp)
  exact ⟨i, List.mem_toFinset.mp hi, hloc⟩

theorem Codec.eval_locator_eq_zero_iff (h : Codec rs g) (hlt : ∀ p ∈ places, p < 255) (i : ℕ) :
    (locator (placesOf rs g places)).eval (GF.alpha g ^ i) = 0 ↔ locOf rs i ∈ places := by
  have hplace := h.place_locOf i
  rw [← inv_inv (GF.alpha g ^ i), ← hplace, eval_inv_locator_eq_zero_iff (place_ne_zero _),
    placesOf, Finset.mem_image]
  refine ⟨?_, fun hp => ⟨_, hp, rfl⟩⟩
  rintro ⟨p, hp, heq⟩
  have := h.injOn_place (by simpa using hlt p hp) (by simpa using locOf_lt rs i) heq
  exact this ▸ hp

theorem Codec.found (h : Codec rs g) (hk : Knows rs g places err s lambda)
    (hlambda : lambda.length = rs.nroots + 1) :
    degLambda rs lambda = places.card ∧
      let found := Fec.chienSearch rs places.card rs.nn 1 (rs.iprim - 1) lambda 0
      (∀ f ∈ found, Found rs g places f) ∧ (found.map (·.2)).Nodup ∧
        (found.map (·.2)).toFinset = places := by
  set p := locator (placesOf rs g places) with hp
  have hdegree : p.natDegree = places.card := by
    rw [hp, natDegree_locator zero_notMem_placesOf, h.card_placesOf hk.lt]
  have hone : p.coeff 0 = 1 := by rw [coeff_zero_eq_eval_zero, hp, eval_zero_locator]
  have hterms : TermsAt rs g p 0 lambda := fun j _ _ => by
    rw [hk.lambda, Nat.mul_zero, pow_zero, mul_one]
  set roots := (List.range' 1 255).filter fun j => p.eval (GF.alpha g ^ j) = 0 with hroots
  have hmem (j : ℕ) : j ∈ roots ↔ j ∈ List.range' 1 255 ∧ locOf rs j ∈ places := by
    rw [hroots, List.mem_filter, decide_eq_true_iff, h.eval_locator_eq_zero_iff hk.lt]
  have hnodup : (roots.map (locOf rs)).Nodup :=
    List.Nodup.map_on (fun i hi j hj => h.locOf_injOn ((hmem i).mp hi).1 ((hmem j).mp hj).1)
      (List.Nodup.filter _ List.nodup_range')
  have hplaces : (roots.map (locOf rs)).toFinset = places := by
    ext q
    rw [List.mem_toFinset, List.mem_map]
    refine ⟨fun ⟨j, hj, heq⟩ => heq ▸ ((hmem j).mp hj).2, fun hq => ?_⟩
    obtain ⟨j, hj, rfl⟩ := h.exists_locOf (hk.lt q hq)
    exact ⟨j, (hmem j).mpr ⟨hj, hq⟩, rfl⟩
  have hlength : roots.length = places.card := by
    rw [← hplaces, List.toFinset_card_of_nodup hnodup, List.length_map]
  have hchien := h.chienSearch hone 255 0 hterms
    (by rw [hdegree, hlambda]; exact Nat.lt_succ_of_le hk.card_le) (by
      rw [Nat.zero_add, Nat.zero_add, ← hroots, hlength, hdegree])
  rw [hdegree, Nat.zero_add, ← hroots, ← h.locOf_one] at hchien
  refine ⟨hdegree ▸ h.degLambda hk.lambda (locator_ne_zero _) (hdegree.trans_le hk.card_le), ?_⟩
  have hsnd : ((fun f : ℕ × ℕ => f.2) ∘ fun j => (j, locOf rs j)) = locOf rs := rfl
  simp only [h.nn, hchien, List.map_map, hsnd]
  refine ⟨fun f hf => ?_, hnodup, hplaces⟩
  obtain ⟨j, hj, rfl⟩ := List.mem_map.mp hf
  obtain ⟨hrange, hloc⟩ := (hmem j).mp hj
  exact ⟨by rw [List.mem_range'_1] at hrange; omega, hloc, by rw [h.place_locOf, inv_inv]⟩

/-! ## The whole decoder -/

theorem errorPositions_eq_empty_iff (hcode : code.length = 255 - rs.pad)
    (hlen : data.length = 255 - rs.pad) : errorPositions rs code data = ∅ ↔ data = code := by
  refine ⟨fun hnone => List.ext_getElem (hlen.trans hcode.symm) fun j hj hj' => ?_, ?_⟩
  · by_contra hne
    refine Finset.notMem_empty (rs.pad + j) (hnone ▸ mem_errorPositions.mpr ⟨by omega, ?_⟩)
    rwa [errorAt, if_pos (Nat.le_add_right _ _), Nat.add_sub_cancel_left,
      List.getD_eq_getElem _ _ hj, List.getD_eq_getElem _ _ hj', ne_eq, UInt8.xor_eq_zero_iff]
  · rintro rfl
    refine Finset.filter_eq_empty_iff.mpr fun p _ => not_not.mpr ?_
    rw [errorAt]
    split
    · rw [UInt8.xor_self]
    · rfl

theorem Codec.syndromes_eq_zero_iff (h : Codec rs g) (hcode : Codeword rs g code)
    (hlen : data.length = 255 - rs.pad) (hfew : (errorPositions rs code data).card ≤ rs.nroots) :
    (Fec.syndromes rs data).foldl (· ||| ·) 0 = 0 ↔ data = code := by
  obtain ⟨hlength, hsyndromes⟩ := h.syndromes hlen
  rw [foldl_or_eq_zero_iff, ← errorPositions_eq_empty_iff hcode.length hlen]
  refine ⟨fun ⟨_, hzero⟩ => ?_, fun hnone => ⟨rfl, fun x hx => ?_⟩⟩
  · refine Finset.eq_empty_of_forall_notMem fun p hp => (mem_errorPositions.mp hp).2 ?_
    have hlt : ∀ p ∈ errorPositions rs code data, p < 255 := fun p hp =>
      (mem_errorPositions.mp hp).1
    have hweight := weights_eq_zero (z := weightAt (errorPositions rs code data) (place rs g)
        fun p => sym g (errorAt rs code data p) * place rs g p ^ rs.fcr)
      zero_notMem_placesOf (fun j hj => ?_) (Finset.mem_image_of_mem (place rs g) hp)
    · rw [weightAt_apply (h.injOn_place.mono fun p hp => by simpa using hlt p hp) hp,
        mul_eq_zero_iff_right (pow_ne_zero _ (place_ne_zero p)), sym_eq_zero_iff] at hweight
      exact hweight
    · have hj' : j < rs.nroots := by
        have : j < (placesOf rs g (errorPositions rs code data)).card := hj
        rw [h.card_placesOf hlt] at this
        omega
      have hget : (Fec.syndromes rs data).getD j 0 = 0 := by
        rw [List.getD_eq_getElem _ _ (hlength.symm ▸ hj')]
        exact hzero _ (List.getElem_mem _)
      have hsum := h.powerSum_errors hlt subset_rfl j
      rw [placesOf, ← h.wordAt_received hcode hlen hj', ← hsyndromes j hj', hget, sym_zero] at hsum
      exact hsum
  · obtain ⟨j, hj, rfl⟩ := List.getElem_of_mem hx
    have hj' : j < rs.nroots := hlength ▸ hj
    have hsum := h.wordAt_received hcode hlen hj'
    rw [← hsyndromes j hj', List.getD_eq_getElem _ _ hj] at hsum
    rw [← sym_eq_zero_iff (g := g), hsum]
    refine Finset.sum_eq_zero fun p hp => ?_
    have hzero : errorAt rs code data p = 0 := by
      by_contra hne
      exact Finset.notMem_empty p (hnone ▸ mem_errorPositions.mpr ⟨Finset.mem_range.mp hp, hne⟩)
    rw [hzero, sym_zero, zero_mul]

theorem Codec.restored (h : Codec rs g) (hcode : Codeword rs g code)
    (hlen : data.length = 255 - rs.pad) (hcover : errorPositions rs code data ⊆ places)
    (hk : Knows rs g places (errorAt rs code data) s lambda) {found : List (ℕ × ℕ)}
    (hfound : ∀ f ∈ found, Found rs g places f) (hnodup : (found.map (·.2)).Nodup)
    (hplaces : (found.map (·.2)).toFinset = places) :
    found.reverse.foldl (Fec.applyError rs lambda (Fec.errorEvaluator rs s lambda places.card)
      places.card) data = code := by
  obtain ⟨hafter, hget⟩ := h.applyErrors hk found.reverse
    (fun f hf => hfound f (List.mem_reverse.mp hf))
    (by rw [List.map_reverse, List.nodup_reverse]; exact hnodup) hlen
  refine List.ext_getElem (hafter.trans hcode.length.symm) fun j hj hj' => ?_
  have hlt := hcode.length ▸ hj'
  have herr : errorAt rs code data (rs.pad + j) = data.getD j 0 ^^^ code.getD j 0 := by
    rw [errorAt, if_pos (Nat.le_add_right _ _), Nat.add_sub_cancel_left]
  rw [← List.getD_eq_getElem _ 0 hj, ← List.getD_eq_getElem _ 0 hj', hget j hlt]
  by_cases hin : rs.pad + j ∈ found.reverse.map (·.2)
  · rw [if_pos hin, herr, ← UInt8.xor_assoc, UInt8.xor_self, UInt8.zero_xor]
  · have hzero : errorAt rs code data (rs.pad + j) = 0 := by
      by_contra hne
      have hmem := hcover (mem_errorPositions.mpr ⟨by omega, hne⟩)
      rw [← hplaces, List.mem_toFinset, ← List.mem_reverse, ← List.map_reverse] at hmem
      exact hin hmem
    rw [if_neg hin, UInt8.xor_zero]
    exact UInt8.xor_eq_zero_iff.mp (herr ▸ hzero)

theorem Codec.decodeRsChar (h : Codec rs g) (hcode : Codeword rs g code)
    (hlen : data.length = 255 - rs.pad) (hnodup : erasPos.Nodup)
    (hlt : ∀ p ∈ erasPos, p < 255)
    (hfew : 2 * (errorPositions rs code data \ erasPos.toFinset).card + erasPos.length ≤
      rs.nroots) :
    let decoded := Fec.decodeRsChar rs data erasPos
    let places := if data = code then ∅ else errorPositions rs code data ∪ erasPos.toFinset
    decoded.data = code ∧ decoded.count = places.card ∧ decoded.loc.Nodup ∧
      decoded.loc.toFinset = places := by
  intro decoded places
  have hk := h.knows hcode hlen hnodup hlt hfew
  have hcard := hk.card_le
  have hcover : errorPositions rs code data ⊆ errorPositions rs code data ∪ erasPos.toFinset :=
    Finset.subset_union_left
  have hsub := Finset.card_le_card hcover
  have hclean := h.syndromes_eq_zero_iff hcode hlen (hsub.trans hcard)
  by_cases heq : data = code
  · simp only [decoded, places, Fec.decodeRsChar, if_pos (hclean.mpr heq), if_pos heq]
    exact ⟨heq, rfl, List.nodup_nil, rfl⟩
  · have hmatches := h.berlekampMassey (h.starts hcode hlen hk.lt hcover)
      (by have := List.toFinset_card_of_nodup hnodup; omega) hnodup hlt
    obtain ⟨hdegree, hfound, hfoundNodup, hfoundPlaces⟩ := h.found hk
      (by rw [List.length_map, hmatches.length_lambda])
    have hlength := List.toFinset_card_of_nodup hfoundNodup
    rw [hfoundPlaces, List.length_map] at hlength
    have hrestored := h.restored hcode hlen hcover hk hfound hfoundNodup
      hfoundPlaces
    simp only [decoded, places, Fec.decodeRsChar, if_neg (mt hclean.mp heq), if_neg heq, hdegree,
      ← hlength, ne_eq, not_true_eq_false, if_false]
    exact ⟨hrestored, trivial, hfoundNodup, hfoundPlaces⟩

end

/-! ## From the initialisation on -/

section

variable {gfpoly : ℕ} [Primitive (BitVec.ofNat 8 gfpoly)] {fcr prim nroots pad : ℤ} {rs : Rs}

/-- What the encoder sends, the decoder restores from any word that arrives, if twice the number
of the errors and the number of the erasures do not exceed the number of roots together. It
reports the places unless nothing was damaged. -/
theorem decoded_of_initRsChar (h : initRsChar 8 gfpoly fcr prim nroots pad = .ok rs)
    (hcoprime : prim.toNat.Coprime 255) (hpos : 1 ≤ nroots)
    {data received : List UInt8} {erasPos : List ℕ}
    (hdata : data.length = 255 - nroots - pad) (hreceived : received.length = 255 - pad)
    (hnodup : erasPos.Nodup) (hlt : ∀ p ∈ erasPos, p < 255)
    (hfew : 2 * ((errorPositions rs (data ++ encodeRsChar rs data) received \
      erasPos.toFinset).card : ℤ) + erasPos.length ≤ nroots) :
    let code := data ++ encodeRsChar rs data
    let decoded := decodeRsChar rs received erasPos
    let places := if received = code then ∅ else
      errorPositions rs code received ∪ erasPos.toFinset
    decoded.data = code ∧ decoded.count = places.card ∧ decoded.loc.Nodup ∧
      decoded.loc.toFinset = places := by
  obtain ⟨⟨_, _, _, _, _, _, _, _⟩, hcodec, hnroots, hpad⟩ := codec_of_initRsChar h hcoprime
  exact hcodec.decodeRsChar (hcodec.codeword (by omega) (by omega)) (by omega) hnodup hlt
    (by omega)

theorem decoded_of_initRsChar_short :
    let rs := withGenpoly (tableBlock 8 0x11d 1 1 4 245 1)
    let code := [1, 2, 3, 4, 5, 6] ++ encodeRsChar rs [1, 2, 3, 4, 5, 6]
    let received := [1, 0, 3, 4, 5, 6, 169, 57, 100, 79]
    let decoded := decodeRsChar rs received [246]
    let places := if received = code then ∅ else errorPositions rs code received ∪ {246}
    decoded.data = code ∧ decoded.count = places.card ∧ decoded.loc.Nodup ∧
      decoded.loc.toFinset = places :=
  decoded_of_initRsChar
    (show initRsChar 8 0x11d 1 1 4 245 = .ok (withGenpoly (tableBlock 8 0x11d 1 1 4 245 1)) by
      decide +kernel)
    (by decide) (by decide) (by decide) (by decide) (by decide) (by decide) (by decide +kernel)

end

end SourceCompanion.Fec
