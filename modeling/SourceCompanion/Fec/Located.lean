import SourceCompanion.Fec.Received
import SourceCompanion.Syndrome.BerlekampMassey

/-! # Locating errors and erasures

The arrays of the decoder hold the polynomials of the search for the shortest recurrence. With
few enough errors and erasures the search yields their locator, and the Chien search finds all
of its roots.
-/

namespace SourceCompanion.Fec

open Galois Polynomial Syndrome

/-! ## Sums -/

section

variable {g : BitVec 8}

theorem sym_foldl_xor {ι : Type*} [Primitive g] (l : List ι) (c : ι → Prop) [DecidablePred c]
    (f : ι → UInt8) (x : UInt8) :
    sym g (l.foldl (fun acc i => if c i then acc ^^^ f i else acc) x) =
      sym g x + (l.map fun i => if c i then sym g (f i) else 0).sum := by
  induction l generalizing x with
  | nil => simp
  | cons i l ih =>
    rw [List.foldl_cons, ih, List.map_cons, List.sum_cons]
    split
    · rw [sym_xor, add_assoc]
    · rw [zero_add]

theorem sum_map_range {F : Type*} [AddCommMonoid F] (f : ℕ → F) (n : ℕ) :
    ((List.range n).map f).sum = ∑ i ∈ Finset.range n, f i := rfl

theorem sum_map_range_reverse {F : Type*} [AddCommMonoid F] (f : ℕ → F) (n : ℕ) :
    ((List.range n).reverse.map f).sum = ∑ i ∈ Finset.range n, f i := by
  rw [List.map_reverse, List.sum_reverse, sum_map_range]

end

section

variable {rs : Rs} {g : BitVec 8} [Primitive g]

/-- The array holds the coefficients of a polynomial in logarithmic form. -/
def HoldsLog (rs : Rs) (g : BitVec 8) [Primitive g] (a : List ℕ) (p : (GF g)[X]) : Prop :=
  ∀ j, value g (a.getD j rs.a0) = p.coeff j

theorem Tabulates.value_eq_zero_iff (h : Tabulates rs g) {i : ℕ} : value g i = 0 ↔ i = rs.a0 := by
  rw [h.a0, value]
  split
  · simp [*]
  · simp [*, alpha_ne_zero]

theorem Tabulates.holdsLog (h : Tabulates rs g) {a : List UInt8} {p : (GF g)[X]}
    (ha : Holds g a p) : HoldsLog rs g (a.map rs.index) p := by
  intro j
  have hzero : rs.a0 = rs.index 0 := (h.index_eq_a0_iff.mpr rfl).symm
  rw [hzero, List.getD_map, h.value_index, ha]

theorem Tabulates.product (h : Tabulates rs g) (x y : ℕ) :
    (if x ≠ rs.a0 ∧ y ≠ rs.a0 then sym g (rs.alpha (rs.modnn (x + y))) else 0) =
      value g x * value g y := by
  split
  · rename_i hne
    rw [h.sym_alpha_modnn, pow_add, h.value_of_ne hne.1, h.value_of_ne hne.2]
  · rename_i hz
    rw [not_and_or, not_not, not_not] at hz
    rcases hz with rfl | rfl
    · rw [h.value_a0, zero_mul]
    · rw [h.value_a0, mul_zero]

theorem Tabulates.pow_modnn (h : Tabulates rs g) (k : ℕ) :
    GF.alpha g ^ rs.modnn k = GF.alpha g ^ k := by
  rw [h.modnn_eq, GF.alpha_pow_eq_iff]
  exact Nat.mod_modEq k 255

/-! ## Erasures -/

noncomputable def factors (rs : Rs) (g : BitVec 8) [Primitive g] (places : List ℕ) : (GF g)[X] :=
  (places.map fun p => 1 - C (place rs g p) * X).prod

theorem factors_concat (places : List ℕ) (p : ℕ) : factors rs g (places ++ [p]) =
    factors rs g places * (1 - C (place rs g p) * X) := by
  simp [factors]

theorem natDegree_factors_le (places : List ℕ) :
    (factors rs g places).natDegree ≤ places.length := by
  induction places using List.reverseRecOn with
  | nil => simp [factors]
  | append_singleton places p ih =>
    rw [factors_concat, List.length_append, List.length_singleton]
    exact natDegree_mul_le.trans (Nat.add_le_add ih (natDegree_one_sub_le _))

theorem Codec.eraseStep (h : Codec rs g) {erasPos : List ℕ} (hlen : erasPos.length ≤ rs.nroots)
    {i : ℕ} (hi : i < erasPos.length) {lambda : List UInt8}
    (hlambda : lambda.length = rs.nroots + 1)
    (hholds : Holds g lambda (factors rs g (erasPos.take i))) :
    (eraseStep rs erasPos lambda i).length = rs.nroots + 1 ∧
      Holds g (eraseStep rs erasPos lambda i) (factors rs g (erasPos.take (i + 1))) := by
  have htake : erasPos.take (i + 1) = erasPos.take i ++ [erasPos.getD i 0] := by
    rw [List.take_add_one, List.getD_eq_getElem _ _ hi, List.getElem?_eq_getElem hi,
      Option.toList_some]
  have hentry (x below : UInt8) : sym g (
      let tmp := rs.index below
      if tmp ≠ rs.a0 then
        x ^^^ rs.alpha (rs.modnn (rs.modnn (rs.prim * (rs.nn - 1 - erasPos.getD i 0)) + tmp))
      else x) = sym g x + place rs g (erasPos.getD i 0) * sym g below := by
    simp only
    rw [← h.value_index below]
    split
    · rw [sym_xor, h.sym_alpha_modnn, pow_add, h.pow_modnn, h.value_of_ne ‹_›, h.nn, place]
    · rw [(h.value_eq_zero_iff).mpr (not_not.mp ‹_›), mul_zero, add_zero]
  have hcoeff (j : ℕ) : (factors rs g (erasPos.take (i + 1))).coeff (j + 1) =
      (factors rs g (erasPos.take i)).coeff (j + 1) +
        place rs g (erasPos.getD i 0) * (factors rs g (erasPos.take i)).coeff j := by
    rw [htake, factors_concat, mul_sub, mul_one, coeff_sub, ← mul_assoc, coeff_mul_X, mul_comm _
      (C _), coeff_C_mul, CharTwo.sub_eq_add]
  refine ⟨by simp [Fec.eraseStep, hlambda], fun j => ?_⟩
  cases j with
  | zero =>
    rw [Fec.eraseStep, getD_zero_downward, hholds, htake, factors_concat, mul_sub, mul_one,
      coeff_sub, ← mul_assoc, mul_coeff_zero _ X, coeff_X_zero, mul_zero, sub_zero]
  | succ j =>
    rw [Fec.eraseStep, getD_succ_downward, hlambda, hcoeff]
    split
    · rw [hentry, hholds, hholds]
    · have hsmall : (factors rs g (erasPos.take i)).natDegree < j := by
        refine (natDegree_factors_le _).trans_lt ?_
        rw [List.length_take]
        omega
      rw [hholds, coeff_eq_zero_of_natDegree_lt hsmall, mul_zero, add_zero]

noncomputable def placesOf (rs : Rs) (g : BitVec 8) [Primitive g] (positions : Finset ℕ) :
    Finset (GF g) := positions.image (place rs g)

theorem Codec.locator_placesOf (h : Codec rs g) {places : List ℕ} (hnodup : places.Nodup)
    (hlt : ∀ p ∈ places, p < 255) :
    locator (placesOf rs g places.toFinset) = factors rs g places := by
  have hinj : Set.InjOn (place rs g) (places.toFinset : Set ℕ) :=
    h.injOn_place.mono fun p hp => by simpa using hlt p (List.mem_toFinset.mp hp)
  rw [locator, placesOf, Finset.prod_image hinj, List.prod_toFinset _ hnodup, factors]

theorem Codec.firstErasure (h : Codec rs g) (hpos : 1 ≤ rs.nroots) (p : ℕ) :
    Holds g (((List.replicate (rs.nroots + 1) 0).set 0 1).set 1
      (rs.alpha (rs.modnn (rs.prim * (rs.nn - 1 - p))))) (factors rs g [p]) := by
  intro j
  have hfactor : factors rs g [p] = 1 - C (place rs g p) * X := by simp [factors]
  rw [getD_set, hfactor, coeff_sub, coeff_C_mul, coeff_X]
  by_cases hj : 1 = j
  · subst hj
    rw [if_pos ⟨rfl, by simp; omega⟩, h.sym_alpha_modnn, h.nn, coeff_one, if_neg one_ne_zero,
      if_pos rfl, mul_one, zero_sub, CharTwo.neg_eq, place]
  · rw [if_neg fun h => hj h.1, if_neg hj, mul_zero, sub_zero]
    exact holds_one rs.nroots j

theorem Codec.erasureLocator (h : Codec rs g) {erasPos : List ℕ}
    (hlen : erasPos.length ≤ rs.nroots) :
    (erasureLocator rs erasPos).length = rs.nroots + 1 ∧
      Holds g (Fec.erasureLocator rs erasPos) (factors rs g erasPos) := by
  rw [Fec.erasureLocator]
  split
  · -- The first erasure is written, the others are multiplied in.
    have hloop (k : ℕ) (hk : k + 1 ≤ erasPos.length) :
        let lambda := (List.range' 1 k).foldl (Fec.eraseStep rs erasPos)
          (((List.replicate (rs.nroots + 1) 0).set 0 1).set 1
            (rs.alpha (rs.modnn (rs.prim * (rs.nn - 1 - erasPos.getD 0 0)))))
        lambda.length = rs.nroots + 1 ∧ Holds g lambda (factors rs g (erasPos.take (k + 1))) := by
      induction k with
      | zero =>
        have htake : erasPos.take 1 = [erasPos.getD 0 0] := by
          rw [List.getD_eq_getElem _ _ (by omega), List.take_one,
            List.head?_eq_getElem?, List.getElem?_eq_getElem (by omega), Option.toList_some]
        rw [htake]
        exact ⟨by simp, h.firstErasure (by omega) _⟩
      | succ k ih =>
        intro lambda
        obtain ⟨hlambda, hholds⟩ := ih (by omega)
        simp only [lambda, List.range'_concat, List.foldl_concat, Nat.one_mul, Nat.add_comm 1 k]
        exact h.eraseStep hlen (by omega) hlambda hholds
    obtain ⟨hlambda, hholds⟩ := hloop (erasPos.length - 1) (by omega)
    rw [Nat.sub_add_cancel (by omega), List.take_length] at hholds
    exact ⟨hlambda, hholds⟩
  · have hnil : erasPos = [] := List.eq_nil_of_length_eq_zero (by omega)
    subst hnil
    exact ⟨by simp, holds_one rs.nroots⟩

/-! ## The search for the locator -/

/-- The arrays of the search hold the recurrence found so far. -/
structure Matches (rs : Rs) (g : BitVec 8) [Primitive g] (q : Search) (p : Recurrence (GF g)) :
    Prop where
  length_lambda : q.lambda.length = rs.nroots + 1
  lambda : Holds g q.lambda p.lambda
  b : HoldsLog rs g q.b p.b
  el : q.el = p.el

/-- The array of the syndromes in logarithmic form starts the series. -/
def Starts (rs : Rs) (g : BitVec 8) [Primitive g] (s : List ℕ) (t : PowerSeries (GF g)) : Prop :=
  ∀ i < rs.nroots, value g (s.getD i rs.a0) = PowerSeries.coeff i t

theorem Tabulates.sym_discrR (h : Tabulates rs g) {s : List ℕ} {t : PowerSeries (GF g)}
    (hs : Starts rs g s t) {lambda : List UInt8} {p : (GF g)[X]} (hlambda : Holds g lambda p)
    {r : ℕ} (hr : r < rs.nroots) :
    sym g (discrR rs s lambda (r + 1)) = discrepancy t p r := by
  rw [discrR, sym_foldl_xor, sym_zero, zero_add, sum_map_range, discrepancy,
    PowerSeries.coeff_mul, Finset.Nat.sum_antidiagonal_eq_sum_range_succ_mk]
  refine Finset.sum_congr rfl fun i hi => ?_
  have hi' := Finset.mem_range.mp hi
  have hproduct := h.product (rs.index (lambda.getD i 0)) (s.getD (r - i) rs.a0)
  rw [h.value_index] at hproduct
  rw [coeff_coe, ← hlambda, ← hs (r - i) (by omega), show r + 1 - i - 1 = r - i by omega,
    ← hproduct]
  simp only [ne_eq, h.index_eq_a0_iff]

/-- The correction of the locator. -/
theorem Tabulates.corrected (h : Tabulates rs g) {q : Search} {p : Recurrence (GF g)}
    (hm : Matches rs g q p) {discr : ℕ} (hdiscr : discr ≠ rs.a0)
    (hdeg : p.b.natDegree < rs.nroots) :
    Holds g (q.lambda.take 1 ++ (List.range rs.nroots).map fun i =>
      if q.b.getD i rs.a0 ≠ rs.a0 then
        q.lambda.getD (i + 1) 0 ^^^ rs.alpha (rs.modnn (discr + q.b.getD i rs.a0))
      else q.lambda.getD (i + 1) 0) (p.lambda - C (value g discr) * (X * p.b)) := by
  intro j
  have hfirst : (q.lambda.take 1).length = 1 := by
    rw [List.length_take, hm.length_lambda]
    omega
  cases j with
  | zero =>
    rw [List.getD_append _ _ _ _ (by omega), coeff_sub, coeff_C_mul, mul_coeff_zero X,
      coeff_X_zero, zero_mul, mul_zero, sub_zero, ← hm.lambda]
    simp [List.getD_eq_getElem?_getD]
  | succ j =>
    rw [List.getD_append_right _ _ _ _ (by omega), hfirst, Nat.add_sub_cancel, coeff_sub,
      coeff_C_mul, coeff_X_mul, ← hm.lambda, ← hm.b, CharTwo.sub_eq_add]
    by_cases hj : j < rs.nroots
    · have hproduct := h.product discr (q.b.getD j rs.a0)
      rw [List.getD_eq_getElem _ _ (by simpa using hj), List.getElem_map, List.getElem_range,
        ← hproduct]
      by_cases hb : q.b.getD j rs.a0 = rs.a0
      · rw [if_neg (not_not.mpr hb), if_neg fun h => h.2 hb, add_zero]
      · rw [if_pos hb, if_pos ⟨hdiscr, hb⟩, sym_xor]
    · rw [List.getD_eq_default _ _ (by simpa using hj),
        List.getD_eq_default _ _ (by rw [hm.length_lambda]; omega), hm.b,
        coeff_eq_zero_of_natDegree_lt (by omega), mul_zero, add_zero]

theorem Tabulates.moved (h : Tabulates rs g) {b : List ℕ} {p : (GF g)[X]}
    (hb : HoldsLog rs g b p) (hdeg : p.natDegree < rs.nroots) :
    HoldsLog rs g (rs.a0 :: b.take rs.nroots) (X * p) := by
  intro j
  cases j with
  | zero => rw [List.getD_cons_zero, h.value_a0, mul_coeff_zero, coeff_X_zero, zero_mul]
  | succ j =>
    rw [List.getD_cons_succ, coeff_X_mul]
    by_cases hj : j < rs.nroots
    · rw [← hb, List.getD_eq_getElem?_getD, List.getElem?_take_of_lt hj,
        ← List.getD_eq_getElem?_getD]
    · rw [List.getD_eq_default _ _ (by simp; omega), h.value_a0,
        coeff_eq_zero_of_natDegree_lt (by omega)]

theorem Tabulates.divided (h : Tabulates rs g) {lambda : List UInt8} {p : (GF g)[X]}
    (hlambda : Holds g lambda p) {d : UInt8} (hd : d ≠ 0) :
    HoldsLog rs g (lambda.map fun x =>
      if x = 0 then rs.a0 else rs.modnn (rs.index x + rs.nn - rs.index d)) (C (sym g d)⁻¹ * p) := by
  intro j
  obtain ⟨hlt, hpow⟩ := h.index_of_ne_zero hd
  have hget := List.getD_map (l := lambda) (d := 0) (n := j) (fun x =>
    if x = 0 then rs.a0 else rs.modnn (rs.index x + rs.nn - rs.index d))
  simp only [if_true] at hget
  rw [hget, coeff_C_mul, ← hlambda]
  split
  · rename_i hx
    rw [hx, sym_zero, mul_zero, h.value_a0]
  · rename_i hx
    have hunit : sym g d ≠ 0 := mt sym_eq_zero_iff.mp hd
    rw [h.value_modnn, h.nn, eq_inv_mul_iff_mul_eq₀ hunit, ← hpow, ← pow_add,
      ← (h.index_of_ne_zero hx).2, GF.alpha_pow_eq_iff, Nat.add_sub_cancel' (by omega)]
    exact Nat.add_mod_right _ 255

theorem Tabulates.berlekampMasseyStep (h : Tabulates rs g) {s : List ℕ} {t : PowerSeries (GF g)}
    (hs : Starts rs g s t) {q : Search} {p : Recurrence (GF g)} (hm : Matches rs g q p)
    {noEras n : ℕ} (hn : noEras + n < rs.nroots) (hdeg : p.b.natDegree ≤ noEras + n) :
    Matches rs g (berlekampMasseyStep rs s noEras q (noEras + 1 + n))
      (p.next t noEras (noEras + n)) := by
  have hdiscr := h.sym_discrR hs hm.lambda hn
  rw [Nat.add_right_comm noEras n 1] at hdiscr
  have hmoved := h.moved hm.b (hdeg.trans_lt hn)
  simp only [Fec.berlekampMasseyStep, Recurrence.next]
  rw [← hdiscr]
  by_cases hzero : discrR rs s q.lambda (noEras + 1 + n) = 0
  · rw [if_pos (h.index_eq_a0_iff.mpr hzero), if_pos (sym_eq_zero_iff.mpr hzero)]
    exact ⟨hm.length_lambda, hm.lambda, hmoved, hm.el⟩
  · have hlength : (q.lambda.take 1).length = 1 := by
      rw [List.length_take, hm.length_lambda]
      omega
    have hcorrected := h.corrected hm (mt h.index_eq_a0_iff.mp hzero) (hdeg.trans_lt hn)
    rw [h.value_index] at hcorrected
    have hcond : 2 * q.el ≤ noEras + 1 + n + noEras - 1 ↔ 2 * p.el ≤ noEras + n + noEras := by
      rw [hm.el]
      omega
    rw [if_neg (mt h.index_eq_a0_iff.mp hzero), if_neg (mt sym_eq_zero_iff.mp hzero)]
    simp only [hcond]
    split
    · refine ⟨by simp [hlength, Nat.add_comm], hcorrected, h.divided hm.lambda hzero, ?_⟩
      simp only [hm.el]
      omega
    · exact ⟨by simp [hlength, Nat.add_comm], hcorrected, hmoved, hm.el⟩

theorem Codec.berlekampMassey (h : Codec rs g) {s : List ℕ} {t : PowerSeries (GF g)}
    (hs : Starts rs g s t) {erasPos : List ℕ} (hlen : erasPos.length ≤ rs.nroots)
    (hnodup : erasPos.Nodup) (hlt : ∀ p ∈ erasPos, p < 255) :
    Matches rs g (berlekampMassey rs s erasPos)
      (recurrence t (placesOf rs g erasPos.toFinset) (rs.nroots - erasPos.length)) := by
  have hcard : (placesOf rs g erasPos.toFinset).card = erasPos.length := by
    rw [placesOf, Finset.card_image_of_injOn, List.toFinset_card_of_nodup hnodup]
    exact h.injOn_place.mono fun p hp => by simpa using hlt p (List.mem_toFinset.mp hp)
  have hloop (n : ℕ) (hn : erasPos.length + n ≤ rs.nroots) : Matches rs g
      ((List.range' (erasPos.length + 1) n).foldl (Fec.berlekampMasseyStep rs s erasPos.length) {
        lambda := Fec.erasureLocator rs erasPos
        b := (Fec.erasureLocator rs erasPos).map rs.index
        el := erasPos.length })
      (recurrence t (placesOf rs g erasPos.toFinset) n) := by
    induction n with
    | zero =>
      obtain ⟨hlambda, hholds⟩ := h.erasureLocator hlen
      rw [← h.locator_placesOf hnodup hlt] at hholds
      exact ⟨hlambda, hholds, h.holdsLog hholds, hcard.symm⟩
    | succ n ih =>
      have hdeg := (natDegree_recurrence_le t (placesOf rs g erasPos.toFinset) n).2
      rw [List.range'_concat, List.foldl_concat, Nat.one_mul, recurrence, hcard]
      rw [hcard] at hdeg
      exact h.berlekampMasseyStep hs (ih (by omega)) (by omega) hdeg
  exact hloop (rs.nroots - erasPos.length) (by omega)

/-! ## The degree and the roots -/

theorem Tabulates.degLambda (h : Tabulates rs g) {lambda : List ℕ} {p : (GF g)[X]}
    (hlambda : HoldsLog rs g lambda p) (hp : p ≠ 0) (hdeg : p.natDegree ≤ rs.nroots) :
    degLambda rs lambda = p.natDegree := by
  have hloop (n : ℕ) (hn : p.natDegree < n) : (List.range n).foldl
      (fun deg i => if lambda.getD i rs.a0 ≠ rs.a0 then i else deg) 0 = p.natDegree := by
    induction n with
    | zero => omega
    | succ n ih =>
      have hterm : lambda.getD n rs.a0 = rs.a0 ↔ p.coeff n = 0 := by
        rw [← hlambda, h.value_eq_zero_iff]
      rw [List.range_succ, List.foldl_concat]
      rcases Nat.lt_succ_iff_lt_or_eq.mp hn with hlt | rfl
      · rw [if_neg (not_not.mpr (hterm.mpr (coeff_eq_zero_of_natDegree_lt hlt))), ih hlt]
      · rw [if_pos (mt hterm.mp (mt leadingCoeff_eq_zero.mp hp))]
  exact hloop _ (Nat.lt_succ_of_le hdeg)

def locOf (rs : Rs) (i : ℕ) : ℕ := (i * rs.iprim + 254) % 255

theorem locOf_lt (rs : Rs) (i : ℕ) : locOf rs i < 255 := Nat.mod_lt _ (by decide)

theorem Codec.place_locOf (h : Codec rs g) (i : ℕ) :
    place rs g (locOf rs i) = (GF.alpha g ^ i)⁻¹ := by
  have hlt := locOf_lt rs i
  have hcancel : 254 - locOf rs i + i * rs.iprim ≡ 0 [MOD 255] := by
    rw [locOf] at hlt ⊢
    rw [Nat.ModEq]
    omega
  have hmul : rs.prim * (254 - locOf rs i) + i ≡ 0 [MOD 255] := by
    have hone : i ≡ rs.prim * (i * rs.iprim) [MOD 255] := by
      have := (h.iprim.mul_left i).symm
      rwa [Nat.mul_one, ← Nat.mul_assoc, Nat.mul_comm _ rs.prim] at this
    calc rs.prim * (254 - locOf rs i) + i
        ≡ rs.prim * (254 - locOf rs i) + rs.prim * (i * rs.iprim) [MOD 255] := hone.add_left _
      _ = rs.prim * (254 - locOf rs i + i * rs.iprim) := (Nat.mul_add ..).symm
      _ ≡ rs.prim * 0 [MOD 255] := hcancel.mul_left _
  refine eq_inv_of_mul_eq_one_left ?_
  rw [place, ← pow_add, ← pow_zero (GF.alpha g), GF.alpha_pow_eq_iff]
  exact hmul

theorem Codec.modnn_locOf (h : Codec rs g) (i : ℕ) :
    rs.modnn (locOf rs i + rs.iprim) = locOf rs (i + 1) := by
  rw [h.modnn_eq, locOf, locOf, Nat.add_mul, Nat.one_mul, Nat.mod_add_mod]
  congr 1
  ring

theorem Codec.locOf_one (h : Codec rs g) : rs.iprim - 1 = locOf rs 1 := by
  have := h.iprim_pos
  have := h.iprim_le
  rw [locOf, Nat.one_mul]
  omega

/-- The terms of the locator at a power of the indeterminate. -/
def TermsAt (rs : Rs) (g : BitVec 8) [Primitive g] (p : (GF g)[X]) (i : ℕ) (reg : List ℕ) : Prop :=
  ∀ j, 1 ≤ j → j ≤ p.natDegree → value g (reg.getD j rs.a0) = p.coeff j * GF.alpha g ^ (j * i)

/-- The terms at the next power. -/
theorem Tabulates.termsAt_succ (h : Tabulates rs g) {p : (GF g)[X]} {i : ℕ} {reg : List ℕ}
    (hreg : TermsAt rs g p i reg) (hlen : p.natDegree < reg.length) :
    let next := reg.mapIdx fun j x =>
      if 1 ≤ j ∧ j ≤ p.natDegree ∧ x ≠ rs.a0 then rs.modnn (x + j) else x
    TermsAt rs g p (i + 1) next ∧ ∀ j, 1 ≤ j → j ≤ p.natDegree →
      next.getD j rs.a0 = rs.a0 ∨ next.getD j rs.a0 < 255 := by
  intro next
  have hget (j : ℕ) (hpos : 1 ≤ j) (hj : j ≤ p.natDegree) : next.getD j rs.a0 =
      if reg.getD j rs.a0 ≠ rs.a0 then rs.modnn (reg.getD j rs.a0 + j) else rs.a0 := by
    have hjlt : j < reg.length := by omega
    simp only [next]
    rw [List.getD_eq_getElem _ _ (by simpa using hjlt), List.getElem_mapIdx,
      List.getD_eq_getElem _ _ hjlt]
    by_cases hx : reg[j] = rs.a0
    · rw [if_neg fun h => h.2.2 hx, if_neg (not_not.mpr hx), hx]
    · rw [if_pos ⟨hpos, hj, hx⟩, if_pos hx]
  refine ⟨fun j hpos hj => ?_, fun j hpos hj => ?_⟩
  · have hterm := hreg j hpos hj
    rw [hget j hpos hj]
    split
    · rw [h.value_of_ne ‹_›] at hterm
      rw [h.value_modnn, pow_add, hterm, mul_assoc, ← pow_add, Nat.mul_succ]
    · rw [not_not.mp ‹¬reg.getD j rs.a0 ≠ rs.a0›, h.value_a0] at hterm
      rw [h.value_a0, Nat.mul_succ, pow_add, ← mul_assoc, ← hterm, zero_mul]
  · rw [hget j hpos hj]
    split
    · rw [h.modnn_eq]
      exact Or.inr (Nat.mod_lt _ (by decide))
    · exact Or.inl rfl

theorem Tabulates.sum_terms (h : Tabulates rs g) {p : (GF g)[X]} (hone : p.coeff 0 = 1) {i : ℕ}
    {reg : List ℕ} (hreg : TermsAt rs g p i reg)
    (hlt : ∀ j, 1 ≤ j → j ≤ p.natDegree → reg.getD j rs.a0 = rs.a0 ∨ reg.getD j rs.a0 < 255) :
    sym g ((List.range p.natDegree).reverse.foldl (fun q j =>
      if reg.getD (j + 1) rs.a0 ≠ rs.a0 then q ^^^ rs.alpha (reg.getD (j + 1) rs.a0) else q) 1) =
      p.eval (GF.alpha g ^ i) := by
  rw [sym_foldl_xor, sum_map_range_reverse, eval_eq_sum_range, Finset.sum_range_succ', hone,
    pow_zero, mul_one, sym_one, add_comm]
  congr 1
  refine Finset.sum_congr rfl fun j hj => ?_
  have hj' := Finset.mem_range.mp hj
  have hterm := hreg (j + 1) (by omega) (by omega)
  rw [← pow_mul, Nat.mul_comm i, ← hterm]
  rcases hlt (j + 1) (by omega) (by omega) with hz | hlt
  · rw [hz, if_neg (not_not.mpr rfl), h.value_a0]
  · have hne : reg.getD (j + 1) rs.a0 ≠ rs.a0 := fun he => by
      rw [he, h.a0] at hlt
      omega
    rw [if_pos hne, h.sym_alpha hlt, h.value_of_ne hne]

theorem Codec.chienSearch (h : Codec rs g) {p : (GF g)[X]} (hone : p.coeff 0 = 1)
    (turns count : ℕ) {i : ℕ} {reg : List ℕ} (hreg : TermsAt rs g p i reg)
    (hlen : p.natDegree < reg.length)
    (hcount : count + ((List.range' (i + 1) turns).filter fun j =>
      p.eval (GF.alpha g ^ j) = 0).length ≤ p.natDegree) :
    chienSearch rs p.natDegree turns (i + 1) (locOf rs (i + 1)) reg count =
      ((List.range' (i + 1) turns).filter fun j => p.eval (GF.alpha g ^ j) = 0).map
        fun j => (j, locOf rs j) := by
  induction turns generalizing i count reg with
  | zero => rfl
  | succ turns ih =>
    obtain ⟨hnext, hlt⟩ := h.termsAt_succ hreg hlen
    have hsum := h.sum_terms hone hnext hlt
    rw [Fec.chienSearch, List.range'_succ, List.filter_cons]
    rw [List.range'_succ, List.filter_cons] at hcount
    simp only [ne_eq, ← sym_eq_zero_iff (g := g), hsum]
    by_cases hroot : p.eval (GF.alpha g ^ (i + 1)) = 0
    · simp only [hroot, decide_true, if_true, List.length_cons] at hcount
      rw [if_neg (not_not.mpr hroot), if_pos (decide_eq_true hroot), List.map_cons]
      split
      · have hnone : ((List.range' (i + 1 + 1) turns).filter fun j =>
            p.eval (GF.alpha g ^ j) = 0).length = 0 := by omega
        rw [List.eq_nil_of_length_eq_zero hnone, List.map_nil]
      · rw [h.modnn_locOf, ih _ hnext (by simpa using hlen) (by omega)]
    · simp only [hroot, decide_false, Bool.false_eq_true, if_false] at hcount
      rw [if_pos hroot, if_neg (by simpa using hroot), h.modnn_locOf,
        ih _ hnext (by simpa using hlen) hcount]

end

end SourceCompanion.Fec
