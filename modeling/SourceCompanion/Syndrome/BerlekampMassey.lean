import Mathlib.RingTheory.PowerSeries.Trunc
import SourceCompanion.Syndrome.Locator

/-! # The shortest recurrence

The sums of the weighted powers of a few places satisfy a recurrence whose polynomial is the
locator of the places. It is found step by step: each term either fits the recurrence so far or
corrects it with an earlier one. Places that are known from the start are left out of the
search.
-/

namespace SourceCompanion.Syndrome

open Polynomial

variable {F : Type*} [Field F]

/-- The recurrence so far, an earlier one moved up to the present and the length. -/
structure Recurrence (F : Type*) [Field F] where
  lambda : F[X]
  b : F[X]
  el : ℕ

/-- How far the recurrence misses a term. -/
noncomputable def discrepancy (s : PowerSeries F) (p : F[X]) (r : ℕ) : F :=
  PowerSeries.coeff r ((p : PowerSeries F) * s)

section

variable [DecidableEq F]

/-- The recurrence takes one more term. Of the places, `known` are known from the start. -/
noncomputable def Recurrence.next (s : PowerSeries F) (known r : ℕ) (q : Recurrence F) :
    Recurrence F :=
  let d := discrepancy s q.lambda r
  if d = 0 then { q with b := X * q.b }
  else if 2 * q.el ≤ r + known then
    { lambda := q.lambda - C d * (X * q.b)
      b := C d⁻¹ * q.lambda
      el := r + 1 + known - q.el }
  else { q with lambda := q.lambda - C d * (X * q.b), b := X * q.b }

/-- The recurrence after `n` terms. It starts with the locator of the known places. -/
noncomputable def recurrence (s : PowerSeries F) (known : Finset F) : ℕ → Recurrence F
  | 0 => { lambda := locator known, b := locator known, el := known.card }
  | n + 1 => (recurrence s known n).next s known.card (known.card + n)

end

/-! ## The invariant -/

theorem discrepancy_X_mul (s : PowerSeries F) (p : F[X]) (r : ℕ) :
    discrepancy s (X * p) (r + 1) = discrepancy s p r := by
  rw [discrepancy, coe_mul, coe_X, mul_assoc, PowerSeries.coeff_succ_X_mul, discrepancy]

theorem discrepancy_C_mul (s : PowerSeries F) (c : F) (p : F[X]) (r : ℕ) :
    discrepancy s (C c * p) r = c * discrepancy s p r := by
  rw [discrepancy, coe_mul, coe_C, mul_assoc, PowerSeries.coeff_C_mul, discrepancy]

theorem discrepancy_sub (s : PowerSeries F) (p q : F[X]) (r : ℕ) :
    discrepancy s (p - q) r = discrepancy s p r - discrepancy s q r := by
  rw [discrepancy, coe_sub, sub_mul, map_sub, discrepancy, discrepancy]

/-- After `r` terms the recurrence fits all terms from its length on. The earlier one, moved up,
misses the last term only, by one. -/
structure Fits (s : PowerSeries F) (r : ℕ) (q : Recurrence F) : Prop where
  el_le : q.el ≤ r
  eval_zero : q.lambda.eval 0 = 1
  natDegree_le : q.lambda.natDegree ≤ q.el
  fits : ∀ j, q.el ≤ j → j < r → discrepancy s q.lambda j = 0
  natDegree_b_le : q.b.natDegree ≤ r - q.el
  b_fits : ∀ j, r + 1 ≤ q.el + j → j < r → discrepancy s (X * q.b) j = 0
  b_misses : 0 < q.el → discrepancy s (X * q.b) r = 1

section Step

variable {s : PowerSeries F} {r : ℕ} {q : Recurrence F}

theorem natDegree_X_mul_b_le (h : Fits s r q) : (X * q.b).natDegree ≤ r + 1 - q.el := by
  have := h.natDegree_b_le
  have := h.el_le
  refine natDegree_mul_le.trans ?_
  rw [natDegree_X]
  omega

theorem Fits.b_next (h : Fits s r q) :
    (X * q.b).natDegree ≤ r + 1 - q.el ∧
      (∀ j, r + 2 ≤ q.el + j → j < r + 1 → discrepancy s (X * (X * q.b)) j = 0) ∧
      (0 < q.el → discrepancy s (X * (X * q.b)) (r + 1) = 1) := by
  refine ⟨natDegree_X_mul_b_le h, fun j hj hr => ?_, fun hel => ?_⟩
  · obtain ⟨i, rfl⟩ : ∃ i, j = i + 1 := ⟨j - 1, by have := h.el_le; omega⟩
    rw [discrepancy_X_mul]
    exact h.b_fits i (by omega) (by omega)
  · rw [discrepancy_X_mul]
    exact h.b_misses hel

theorem Fits.corrected (h : Fits s r q) (el : ℕ) (hle : q.el ≤ el) (hb : r + 1 - q.el ≤ el) :
    let p := q.lambda - C (discrepancy s q.lambda r) * (X * q.b)
    p.eval 0 = 1 ∧ p.natDegree ≤ el ∧
      ∀ j, el ≤ j → j < r + 1 → discrepancy s p j = 0 := by
  refine ⟨by simp [h.eval_zero], ?_, fun j hj hr => ?_⟩
  · refine (natDegree_sub_le _ _).trans (max_le (h.natDegree_le.trans hle) ?_)
    exact (natDegree_C_mul_le _ _).trans ((natDegree_X_mul_b_le h).trans hb)
  · rw [discrepancy_sub, discrepancy_C_mul]
    rcases Nat.lt_succ_iff_lt_or_eq.mp hr with hlt | rfl
    · rw [h.fits j (by omega) hlt, h.b_fits j (by omega) hlt, mul_zero, sub_zero]
    · rw [h.b_misses (by omega), mul_one, sub_self]

theorem Fits.next [DecidableEq F] (h : Fits s r q) : Fits s (r + 1) (q.next s 0 r) := by
  have hel := h.el_le
  obtain ⟨hdeg, hfits, hmisses⟩ := h.b_next
  simp only [Recurrence.next]
  split_ifs with hd hlong
  · refine ⟨by simp only; omega, h.eval_zero, h.natDegree_le, fun j hj hr => ?_, hdeg, hfits,
      hmisses⟩
    rcases Nat.lt_succ_iff_lt_or_eq.mp hr with hlt | rfl
    · exact h.fits j hj hlt
    · exact hd
  · -- The old recurrence missed the term and becomes the earlier one.
    obtain ⟨hone, hdeg', hfits'⟩ := h.corrected (r + 1 + 0 - q.el) (by omega) (by omega)
    refine ⟨by simp only; omega, hone, hdeg', hfits', ?_, fun j hj hr => ?_, fun _ => ?_⟩
    · refine (natDegree_C_mul_le _ _).trans (h.natDegree_le.trans ?_)
      simp only
      omega
    · simp only at hj
      obtain ⟨i, rfl⟩ : ∃ i, j = i + 1 := ⟨j - 1, by omega⟩
      rw [discrepancy_X_mul, discrepancy_C_mul, h.fits i (by omega) (by omega), mul_zero]
    · rw [discrepancy_X_mul, discrepancy_C_mul, inv_mul_cancel₀ hd]
  · obtain ⟨hone, hdeg', hfits'⟩ := h.corrected q.el le_rfl (by omega)
    exact ⟨by simp only; omega, hone, hdeg', hfits', hdeg, hfits, hmisses⟩

end Step

theorem fits_recurrence [DecidableEq F] (s : PowerSeries F) (n : ℕ) :
    Fits s n (recurrence s ∅ n) := by
  induction n with
  | zero =>
    refine ⟨le_rfl, by simp [recurrence], by simp [recurrence], fun j _ hj => ?_,
      by simp [recurrence], fun j _ hj => ?_, fun h => ?_⟩
    · omega
    · omega
    · simp [recurrence] at h
  | succ n ih =>
    have := ih.next
    rwa [recurrence, Finset.card_empty, Nat.zero_add]

theorem natDegree_recurrence_le [DecidableEq F] (s : PowerSeries F) (known : Finset F) (n : ℕ) :
    (recurrence s known n).lambda.natDegree ≤ known.card + n ∧
      (recurrence s known n).b.natDegree ≤ known.card + n := by
  induction n with
  | zero => exact ⟨natDegree_locator_le known, natDegree_locator_le known⟩
  | succ n ih =>
    obtain ⟨hlambda, hb⟩ := ih
    have hmoved : (X * (recurrence s known n).b).natDegree ≤ known.card + (n + 1) := by
      refine natDegree_mul_le.trans ?_
      rw [natDegree_X]
      omega
    have hcorrected (c : F) : ((recurrence s known n).lambda -
        C c * (X * (recurrence s known n).b)).natDegree ≤ known.card + (n + 1) := by
      refine (natDegree_sub_le _ _).trans (max_le (by omega) ?_)
      exact (natDegree_C_mul_le _ _).trans hmoved
    simp only [recurrence, Recurrence.next]
    split_ifs
    · exact ⟨by simp only; omega, hmoved⟩
    · exact ⟨hcorrected _, (natDegree_C_mul_le _ _).trans (by omega)⟩
    · exact ⟨hcorrected _, hmoved⟩

/-! ## The locator is found -/

theorem coeff_mul_eq_zero {p q : F[X]} {m n j : ℕ} (hp : p.natDegree ≤ m)
    (hq : ∀ k, n ≤ k → q.coeff k = 0) (hj : m + n ≤ j) : (p * q).coeff j = 0 := by
  rw [coeff_mul]
  refine Finset.sum_eq_zero fun ⟨i, k⟩ hik => ?_
  have hsum : i + k = j := Finset.HasAntidiagonal.mem_antidiagonal.mp hik
  by_cases hi : m < i
  · rw [coeff_eq_zero_of_natDegree_lt (hp.trans_lt hi), zero_mul]
  · rw [hq k (by omega), mul_zero]

theorem coeff_mul_geometric {p : F[X]} {x : F} (hx : x ≠ 0) {k : ℕ} (hk : p.natDegree ≤ k) :
    PowerSeries.coeff k ((p : PowerSeries F) * PowerSeries.mk (x ^ ·)) = x ^ k * p.eval x⁻¹ := by
  rw [PowerSeries.coeff_mul, Finset.Nat.sum_antidiagonal_eq_sum_range_succ_mk,
    eval_eq_sum_range' (Nat.lt_succ_of_le hk), Finset.mul_sum]
  refine Finset.sum_congr rfl fun i hi => ?_
  have hik : i ≤ k := Nat.lt_succ_iff.mp (Finset.mem_range.mp hi)
  rw [coeff_coe, PowerSeries.coeff_mk, inv_pow, mul_left_comm, pow_sub₀ x hx hik]

theorem discrepancy_mul {s t : PowerSeries F} {p q : F[X]} {m n : ℕ}
    (hst : ∀ j, PowerSeries.coeff (m + j) ((p : PowerSeries F) * s) = PowerSeries.coeff j t)
    (hq : q.natDegree ≤ n) : discrepancy s (p * q) (m + n) = discrepancy t q n := by
  rw [discrepancy, coe_mul, mul_comm (p : PowerSeries F), mul_assoc, discrepancy,
    PowerSeries.coeff_mul, PowerSeries.coeff_mul,
    Finset.Nat.sum_antidiagonal_eq_sum_range_succ_mk,
    Finset.Nat.sum_antidiagonal_eq_sum_range_succ_mk]
  rw [← Finset.sum_subset (Finset.range_mono (by omega : n.succ ≤ (m + n).succ))]
  · refine Finset.sum_congr rfl fun i hi => ?_
    have hin : i ≤ n := Nat.lt_succ_iff.mp (Finset.mem_range.mp hi)
    rw [Nat.add_sub_assoc hin, hst]
  · intro i _ hi
    rw [Finset.mem_range] at hi
    rw [coeff_coe, coeff_eq_zero_of_natDegree_lt (by omega), zero_mul]

section Places

variable [DecidableEq F] {E : Finset F} {z : F → F} {n : ℕ} {q : Recurrence F}

theorem coeff_evaluator_eq_zero {j : ℕ} (hj : E.card ≤ j) : (evaluator E z).coeff j = 0 := by
  rcases E.eq_empty_or_nonempty with rfl | hE
  · simp [evaluator]
  · exact coeff_eq_zero_of_natDegree_lt ((natDegree_evaluator_lt hE).trans_le hj)

theorem locator_mul_recurrence (p : F[X]) :
    (locator E : PowerSeries F) * ((p : PowerSeries F) * PowerSeries.mk (powerSum E z)) =
      ((p * evaluator E z : F[X]) : PowerSeries F) := by
  rw [mul_left_comm, locator_mul_powerSum, coe_mul]

theorem lt_of_discrepancy_ne_zero (h : Fits (PowerSeries.mk (powerSum E z)) n q)
    (hd : discrepancy (PowerSeries.mk (powerSum E z)) q.lambda n ≠ 0) :
    n < q.el + E.card := by
  by_contra hle
  rw [not_lt] at hle
  -- The term of both recurrences together, in two ways.
  have hzero : PowerSeries.coeff n ((locator E : PowerSeries F) *
      ((q.lambda : PowerSeries F) * PowerSeries.mk (powerSum E z))) = 0 := by
    rw [locator_mul_recurrence, coeff_coe]
    exact coeff_mul_eq_zero h.natDegree_le (fun _ => coeff_evaluator_eq_zero) hle
  rw [PowerSeries.coeff_mul, Finset.sum_eq_single_of_mem (0, n) (by simp)] at hzero
  · refine hd ?_
    rwa [coeff_coe, coeff_zero_eq_eval_zero, eval_zero_locator, one_mul] at hzero
  · rintro ⟨i, j⟩ hij hne
    have hsum : i + j = n := Finset.HasAntidiagonal.mem_antidiagonal.mp hij
    by_cases hj : q.el ≤ j
    · have hlt : j < n := by
        rcases Nat.lt_or_eq_of_le (show j ≤ n by omega) with hlt | rfl
        · exact hlt
        · exact absurd (by rw [show i = 0 by omega]) hne
      have hfits := h.fits j hj hlt
      rw [discrepancy] at hfits
      rw [hfits, mul_zero]
    · have hlarge : (locator E).natDegree < i := (natDegree_locator_le E).trans_lt (by omega)
      rw [coeff_coe, coeff_eq_zero_of_natDegree_lt hlarge, zero_mul]

theorem el_le_card (n : ℕ) : (recurrence (PowerSeries.mk (powerSum E z)) ∅ n).el ≤ E.card := by
  induction n with
  | zero => simp [recurrence]
  | succ n ih =>
    have hfits := fits_recurrence (PowerSeries.mk (powerSum E z)) n
    simp only [recurrence, Recurrence.next, Finset.card_empty, Nat.zero_add]
    split_ifs with hd hlong
    · exact ih
    · have := lt_of_discrepancy_ne_zero hfits hd
      simp only
      omega
    · exact ih

/-- A recurrence no longer than the number of places that fits twice as many terms is the
locator of the places. -/
theorem Fits.eq_locator (h : Fits (PowerSeries.mk (powerSum E z)) n q) (h₀ : 0 ∉ E)
    (hz : ∀ x ∈ E, z x ≠ 0) (hel : q.el ≤ E.card) (hn : 2 * E.card ≤ n) :
    q.lambda = locator E := by
  set t : PowerSeries F := (q.lambda : PowerSeries F) * PowerSeries.mk (powerSum E z) with ht
  have htrunc (j : ℕ) (hj : j < n) :
      (PowerSeries.trunc q.el t).coeff j = PowerSeries.coeff j t := by
    rw [PowerSeries.coeff_trunc]
    split
    · rfl
    · exact (h.fits j (by omega) hj).symm
  -- What the recurrence leaves of the power sums is a multiple of the locator.
  have hkey : q.lambda * evaluator E z = locator E * PowerSeries.trunc q.el t := by
    ext j
    by_cases hj : j < n
    · rw [← coeff_coe, ← locator_mul_recurrence, ← ht, PowerSeries.coeff_mul, coeff_mul]
      refine Finset.sum_congr rfl fun ⟨i, k⟩ hik => ?_
      have hsum : i + k = j := Finset.HasAntidiagonal.mem_antidiagonal.mp hik
      rw [coeff_coe, htrunc k (by omega)]
    · rw [coeff_mul_eq_zero h.natDegree_le (fun _ => coeff_evaluator_eq_zero) (by omega),
        coeff_mul_eq_zero (natDegree_locator_le E) (n := q.el) (fun k hk => ?_) (by omega)]
      rw [PowerSeries.coeff_trunc, if_neg (by omega)]
  refine Syndrome.eq_locator h₀ (h.natDegree_le.trans hel) h.eval_zero fun x hx => ?_
  have hx₀ : x ≠ 0 := fun h => h₀ (h ▸ hx)
  have heval := congrArg (eval x⁻¹) hkey
  rw [eval_mul, eval_mul, (eval_inv_locator_eq_zero_iff hx₀).mpr hx, zero_mul,
    eval_inv_evaluator h₀ hx] at heval
  exact (mul_eq_zero.mp heval).resolve_right
    (mul_ne_zero (hz x hx) (eval_inv_locator_erase_ne_zero h₀ hx))

end Places

/-! ## Known places -/

section Known

variable [DecidableEq F] {E known : Finset F} {z : F → F}

/-- The weight that a place has once the known places are taken out. -/
noncomputable def remainingWeight (known : Finset F) (z : F → F) (x : F) : F :=
  z x * (x ^ known.card * (locator known).eval x⁻¹)

theorem coeff_locator_mul_powerSum (h₀ : 0 ∉ E) (j : ℕ) :
    PowerSeries.coeff (known.card + j)
        ((locator known : PowerSeries F) * PowerSeries.mk (powerSum E z)) =
      powerSum (E \ known) (remainingWeight known z) j := by
  have hsplit : powerSum (E \ known) (remainingWeight known z) j =
      powerSum E (remainingWeight known z) j := by
    refine Finset.sum_subset Finset.sdiff_subset fun x hx hknown => ?_
    have hmem : x ∈ known := by simpa [hx] using hknown
    rw [remainingWeight, (eval_inv_locator_eq_zero_iff fun h => h₀ (h ▸ hx)).mpr hmem, mul_zero,
      mul_zero, zero_mul]
  rw [hsplit, mk_powerSum, Finset.mul_sum, map_sum]
  refine Finset.sum_congr rfl fun x hx => ?_
  have hx₀ : x ≠ 0 := fun h => h₀ (h ▸ hx)
  rw [mul_left_comm, PowerSeries.coeff_C_mul, coeff_mul_geometric hx₀
    ((natDegree_locator_le known).trans (Nat.le_add_right _ _)), remainingWeight, pow_add]
  ring

theorem recurrence_known {s t : PowerSeries F}
    (hst : ∀ j, PowerSeries.coeff (known.card + j) ((locator known : PowerSeries F) * s) =
      PowerSeries.coeff j t) (n : ℕ) :
    recurrence s known n =
      { lambda := locator known * (recurrence t ∅ n).lambda
        b := locator known * (recurrence t ∅ n).b
        el := known.card + (recurrence t ∅ n).el } := by
  induction n with
  | zero => simp [recurrence]
  | succ n ih =>
    have hfits := fits_recurrence t n
    have hel := hfits.el_le
    have hd := discrepancy_mul hst (hfits.natDegree_le.trans hel)
    have hlong : 2 * (known.card + (recurrence t ∅ n).el) ≤ known.card + n + known.card ↔
        2 * (recurrence t ∅ n).el ≤ n := by omega
    rw [recurrence, ih, recurrence]
    simp only [Recurrence.next, hd, hlong, Finset.card_empty, Nat.zero_add, Nat.add_zero]
    split_ifs
    · simp only [Recurrence.mk.injEq, true_and, and_true]
      ring
    · simp only [Recurrence.mk.injEq]
      exact ⟨by ring, by ring, by omega⟩
    · simp only [Recurrence.mk.injEq, and_true]
      exact ⟨by ring, by ring⟩

theorem recurrence_eq_locator (h₀ : 0 ∉ E) (hz : ∀ x ∈ E, z x ≠ 0) {n : ℕ}
    (hn : 2 * (E \ known).card ≤ n) :
    (recurrence (PowerSeries.mk (powerSum E z)) known n).lambda = locator (E ∪ known) := by
  have h₀' : 0 ∉ E \ known := fun h => h₀ (Finset.mem_sdiff.mp h).1
  have hz' : ∀ x ∈ E \ known, remainingWeight known z x ≠ 0 := by
    intro x hx
    obtain ⟨hE, hknown⟩ := Finset.mem_sdiff.mp hx
    have hx₀ : x ≠ 0 := fun h => h₀ (h ▸ hE)
    exact mul_ne_zero (hz x hE) (mul_ne_zero (pow_ne_zero _ hx₀)
      (mt (eval_inv_locator_eq_zero_iff hx₀).mp hknown))
  have hst (j : ℕ) : PowerSeries.coeff (known.card + j)
      ((locator known : PowerSeries F) * PowerSeries.mk (powerSum E z)) =
      PowerSeries.coeff j (PowerSeries.mk (powerSum (E \ known) (remainingWeight known z))) := by
    rw [coeff_locator_mul_powerSum h₀, PowerSeries.coeff_mk]
  rw [recurrence_known hst]
  simp only
  rw [(fits_recurrence _ n).eq_locator h₀' hz' (el_le_card n) hn,
    ← locator_union Finset.disjoint_sdiff, Finset.union_sdiff_self_eq_union, Finset.union_comm]

end Known

end SourceCompanion.Syndrome
