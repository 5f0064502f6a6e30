import Mathlib.Algebra.Polynomial.BigOperators
import Mathlib.Algebra.Polynomial.Derivative
import Mathlib.LinearAlgebra.Lagrange
import Mathlib.RingTheory.PowerSeries.WellKnown
import Mathlib.Tactic.LinearCombination

/-! # Locators and evaluators

A finite set of places with a weight at each has its power sums. They are the quotient of an
evaluator by a locator that vanishes at the inverses of the places. The weights are read back
from the evaluator and the derivative of the locator.
-/

namespace SourceCompanion.Syndrome

open Polynomial

variable {F : Type*} [Field F]

/-! ## The locator -/

noncomputable def locator (E : Finset F) : F[X] := ∏ x ∈ E, (1 - C x * X)

@[simp] theorem locator_empty : locator (∅ : Finset F) = 1 := rfl

@[simp] theorem eval_zero_locator (E : Finset F) : (locator E).eval 0 = 1 := by
  simp [locator, eval_prod]

theorem natDegree_one_sub_le (x : F) : (1 - C x * X).natDegree ≤ 1 := by
  refine (natDegree_sub_le _ _).trans ?_
  simpa using natDegree_C_mul_le x X

theorem natDegree_locator_le (E : Finset F) : (locator E).natDegree ≤ E.card := by
  refine (natDegree_prod_le E _).trans ?_
  simpa using Finset.sum_le_card_nsmul E _ 1 fun x _ => natDegree_one_sub_le x

theorem locator_ne_zero (E : Finset F) : locator E ≠ 0 := by
  intro h
  simpa [h] using eval_zero_locator E

theorem natDegree_locator {E : Finset F} (h₀ : 0 ∉ E) : (locator E).natDegree = E.card := by
  have hfactor : ∀ x ∈ E, (1 - C x * X).natDegree = 1 := fun x hx => by
    have hx₀ : -x ≠ 0 := neg_ne_zero.mpr fun h => h₀ (h ▸ hx)
    have := natDegree_linear (b := 1) hx₀
    rwa [C_neg, neg_mul, neg_add_eq_sub] at this
  rw [locator, natDegree_prod _ _ fun x hx h => by simpa [h] using hfactor x hx,
    Finset.sum_congr rfl hfactor, Finset.sum_const, smul_eq_mul, mul_one]

section

variable [DecidableEq F] {E : Finset F} {x : F}

theorem locator_erase_mul (hx : x ∈ E) : locator (E.erase x) * (1 - C x * X) = locator E :=
  Finset.prod_erase_mul E _ hx

theorem locator_union {D : Finset F} (h : Disjoint D E) :
    locator (D ∪ E) = locator D * locator E := Finset.prod_union h

end

theorem eval_inv_locator_eq_zero_iff {E : Finset F} {x : F} (hx : x ≠ 0) :
    (locator E).eval x⁻¹ = 0 ↔ x ∈ E := by
  have hroot (y : F) : (1 - C y * X).eval x⁻¹ = 0 ↔ y = x := by
    simp only [eval_sub, eval_one, eval_mul, eval_C, eval_X, sub_eq_zero]
    rw [eq_comm, mul_inv_eq_one₀ hx]
  simp only [locator, eval_prod, Finset.prod_eq_zero_iff, hroot, exists_eq_right]

/-- A polynomial that vanishes where the locator does is the locator if its degree is no
larger and it starts with one. -/
theorem eq_locator [DecidableEq F] {E : Finset F} (h₀ : 0 ∉ E) {p : F[X]}
    (hdeg : p.natDegree ≤ E.card) (hone : p.eval 0 = 1)
    (hroots : ∀ x ∈ E, p.eval x⁻¹ = 0) : p = locator E := by
  -- The two agree at zero and at the inverses.
  have hzero : (0 : F) ∉ E.image (·⁻¹) := by simpa using h₀
  have hcard : (insert 0 (E.image (·⁻¹))).card = E.card + 1 := by
    rw [Finset.card_insert_of_notMem hzero, Finset.card_image_of_injective _ inv_injective]
  refine eq_of_degrees_lt_of_eval_finset_eq (insert 0 (E.image (·⁻¹))) ?_ ?_ ?_
  · rw [hcard]
    exact (degree_le_of_natDegree_le hdeg).trans_lt (by exact_mod_cast Nat.lt_succ_self _)
  · rw [hcard]
    exact (degree_le_of_natDegree_le (natDegree_locator_le E)).trans_lt
      (by exact_mod_cast Nat.lt_succ_self _)
  · intro y hy
    rcases Finset.mem_insert.mp hy with rfl | hy
    · rw [hone, eval_zero_locator]
    · obtain ⟨x, hx, rfl⟩ := Finset.mem_image.mp hy
      have hx₀ : x ≠ 0 := fun h => h₀ (h ▸ hx)
      rw [hroots x hx, (eval_inv_locator_eq_zero_iff hx₀).mpr hx]

/-! ## The power sums -/

def powerSum (E : Finset F) (z : F → F) (j : ℕ) : F := ∑ x ∈ E, z x * x ^ j

noncomputable def evaluator [DecidableEq F] (E : Finset F) (z : F → F) : F[X] :=
  ∑ x ∈ E, C (z x) * locator (E.erase x)

theorem one_sub_mul_geometric (x : F) :
    (1 - PowerSeries.C x * PowerSeries.X) * PowerSeries.mk (x ^ ·) = 1 := by
  ext n
  cases n with
  | zero => simp [sub_mul, mul_assoc]
  | succ n =>
    rw [sub_mul, one_mul, mul_assoc, map_sub, PowerSeries.coeff_C_mul,
      PowerSeries.coeff_succ_X_mul, PowerSeries.coeff_mk, PowerSeries.coeff_mk, pow_succ',
      sub_self, PowerSeries.coeff_one, if_neg n.succ_ne_zero]

theorem mk_powerSum (E : Finset F) (z : F → F) :
    PowerSeries.mk (powerSum E z) = ∑ x ∈ E, PowerSeries.C (z x) * PowerSeries.mk (x ^ ·) := by
  ext n
  simp [powerSum]

theorem locator_mul_geometric [DecidableEq F] {E : Finset F} {x : F} (hx : x ∈ E) :
    (locator E : PowerSeries F) * PowerSeries.mk (x ^ ·) = locator (E.erase x) := by
  rw [← locator_erase_mul hx, coe_mul, coe_sub, coe_one, coe_mul, coe_C, coe_X, mul_assoc,
    one_sub_mul_geometric, mul_one]

theorem locator_mul_powerSum [DecidableEq F] (E : Finset F) (z : F → F) :
    (locator E : PowerSeries F) * PowerSeries.mk (powerSum E z) = evaluator E z := by
  have hcoe : ((evaluator E z : F[X]) : PowerSeries F) =
      ∑ x ∈ E, PowerSeries.C (z x) * (locator (E.erase x) : PowerSeries F) := by
    rw [evaluator, ← coeToPowerSeries.ringHom_apply, map_sum]
    simp
  rw [mk_powerSum, Finset.mul_sum, hcoe]
  refine Finset.sum_congr rfl fun x hx => ?_
  rw [mul_left_comm, locator_mul_geometric hx]

section

variable [DecidableEq F] {E : Finset F} {z : F → F} {x : F}

theorem natDegree_evaluator_lt (hE : E.Nonempty) : (evaluator E z).natDegree < E.card := by
  have hpos := hE.card_pos
  refine Nat.lt_of_le_pred hpos (natDegree_sum_le_of_forall_le E _ fun x hx => ?_)
  refine (natDegree_C_mul_le _ _).trans ((natDegree_locator_le _).trans ?_)
  rw [Finset.card_erase_of_mem hx, Nat.pred_eq_sub_one]

theorem eval_inv_evaluator (h₀ : 0 ∉ E) (hx : x ∈ E) :
    (evaluator E z).eval x⁻¹ = z x * (locator (E.erase x)).eval x⁻¹ := by
  have hx₀ : x ≠ 0 := fun h => h₀ (h ▸ hx)
  rw [evaluator, eval_finsetSum, Finset.sum_eq_single_of_mem x hx]
  · rw [eval_mul, eval_C]
  · intro y _ hne
    rw [eval_mul, (eval_inv_locator_eq_zero_iff hx₀).mpr
      (Finset.mem_erase.mpr ⟨hne.symm, hx⟩), mul_zero]

theorem eval_inv_derivative_locator (h₀ : 0 ∉ E) (hx : x ∈ E) :
    (derivative (locator E)).eval x⁻¹ = -x * (locator (E.erase x)).eval x⁻¹ := by
  have hx₀ : x ≠ 0 := fun h => h₀ (h ▸ hx)
  have hroot : (1 - C x * X).eval x⁻¹ = 0 := by simp [mul_inv_cancel₀ hx₀]
  have hderiv : derivative (1 - C x * X) = -C x := by simp
  rw [← locator_erase_mul hx, derivative_mul, hderiv, eval_add, eval_mul,
    eval_mul, hroot, mul_zero, zero_add, eval_neg, eval_C, mul_comm]

theorem eval_inv_locator_erase_ne_zero (h₀ : 0 ∉ E) (hx : x ∈ E) :
    (locator (E.erase x)).eval x⁻¹ ≠ 0 := by
  rw [ne_eq, eval_inv_locator_eq_zero_iff fun h => h₀ (h ▸ hx)]
  exact Finset.notMem_erase x E

theorem weight_eq (h₀ : 0 ∉ E) (hx : x ∈ E) :
    z x = -x * (evaluator E z).eval x⁻¹ / (derivative (locator E)).eval x⁻¹ := by
  have hx₀ : x ≠ 0 := fun h => h₀ (h ▸ hx)
  have hne := eval_inv_locator_erase_ne_zero h₀ hx
  rw [eval_inv_evaluator h₀ hx, eval_inv_derivative_locator h₀ hx, ← mul_assoc,
    mul_div_mul_right _ _ hne, neg_mul, neg_div_neg_eq, mul_div_cancel_left₀ _ hx₀]

end

theorem eval_derivative_eq [CharP F 2] {p : F[X]} {n : ℕ} (hpos : 0 < n)
    (hn : p.natDegree ≤ 2 * n) (x : F) :
    (derivative p).eval x = ∑ i ∈ Finset.range n, p.coeff (2 * i + 1) * x ^ (2 * i) := by
  have hcast (i : ℕ) : ((2 * i : ℕ) : F) = 0 := by
    rw [Nat.cast_mul, CharP.cast_eq_zero, zero_mul]
  have hpairs (m : ℕ) : ∑ k ∈ Finset.range (2 * m), (derivative p).coeff k * x ^ k =
      ∑ i ∈ Finset.range m, p.coeff (2 * i + 1) * x ^ (2 * i) := by
    induction m with
    | zero => rfl
    | succ m ih =>
      have heven : (derivative p).coeff (2 * m) = p.coeff (2 * m + 1) := by
        rw [coeff_derivative, hcast, zero_add, mul_one]
      have hodd : (derivative p).coeff (2 * m + 1) = 0 := by
        rw [coeff_derivative, ← Nat.cast_succ, show (2 * m + 1).succ = 2 * (m + 1) by omega, hcast,
          mul_zero]
      rw [Nat.mul_succ, Finset.sum_range_succ, Finset.sum_range_succ, ih, Finset.sum_range_succ,
        heven, hodd, zero_mul, add_zero]
  have hdeg := natDegree_derivative_le p
  rw [eval_eq_sum_range' (show (derivative p).natDegree < 2 * n by omega), hpairs]

end SourceCompanion.Syndrome
