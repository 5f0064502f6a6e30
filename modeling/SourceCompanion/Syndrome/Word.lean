import SourceCompanion.Syndrome.Locator

/-! # Words and generators

A word is evaluated with its first symbol at the highest power. A polynomial with enough
consecutive powers among its roots is zero or has many terms, so the product of the linear
factors of consecutive powers has all terms.
-/

namespace SourceCompanion.Syndrome

open Polynomial

variable {F : Type*} [Field F]

/-! ## Evaluating words -/

/-- The word as a polynomial, its first symbol at the highest power, at `β`. -/
def horner (β : F) (word : List F) : F := word.foldl (fun acc x => acc * β + x) 0

@[simp] theorem horner_nil (β : F) : horner β [] = 0 := rfl

theorem horner_concat (β : F) (word : List F) (x : F) :
    horner β (word ++ [x]) = horner β word * β + x := by
  rw [horner, List.foldl_concat, horner]

theorem horner_append (β : F) (v w : List F) :
    horner β (v ++ w) = horner β v * β ^ w.length + horner β w := by
  induction w using List.reverseRecOn with
  | nil => simp
  | append_singleton w x ih =>
    rw [← List.append_assoc, horner_concat, ih, horner_concat, List.length_append,
      List.length_singleton, pow_succ]
    ring

theorem horner_cons (β x : F) (word : List F) :
    horner β (x :: word) = x * β ^ word.length + horner β word := by
  have := horner_append β [x] word
  simpa [horner] using this

theorem horner_eq_sum (β : F) (word : List F) :
    horner β word = ∑ j ∈ Finset.range word.length, word.getD j 0 * β ^ (word.length - 1 - j) := by
  induction word with
  | nil => simp
  | cons x word ih =>
    rw [horner_cons, List.length_cons, Finset.sum_range_succ', ih, add_comm]
    congr 1
    refine Finset.sum_congr rfl fun j hj => ?_
    rw [List.getD_cons_succ, Nat.add_sub_cancel, Nat.sub_sub, Nat.add_comm 1 j]

/-! ## Weights by index -/

/-- The weight at a place given by an index. -/
noncomputable def weightAt {ι : Type*} [Nonempty ι] (s : Finset ι) (x c : ι → F) (y : F) : F :=
  c (Function.invFunOn x s y)

section

variable {ι : Type*} [Nonempty ι] {s : Finset ι} {x : ι → F} {c : ι → F}

omit [Field F] in
theorem weightAt_apply (hx : Set.InjOn x s) {p : ι} (hp : p ∈ s) : weightAt s x c (x p) = c p :=
  congrArg c (hx.leftInvOn_invFunOn hp)

theorem powerSum_image [DecidableEq F] (hx : Set.InjOn x s) (j : ℕ) :
    powerSum (s.image x) (weightAt s x c) j = ∑ p ∈ s, c p * x p ^ j := by
  rw [powerSum, Finset.sum_image hx]
  exact Finset.sum_congr rfl fun p hp => by rw [weightAt_apply hx hp]

end

/-! ## Consecutive roots -/

theorem weights_eq_zero [DecidableEq F] {E : Finset F} {z : F → F} (h₀ : 0 ∉ E)
    (hsum : ∀ j < E.card, powerSum E z j = 0) {x : F} (hx : x ∈ E) : z x = 0 := by
  have hzero : evaluator E z = 0 := by
    ext j
    rw [coeff_zero]
    by_cases hj : j < E.card
    · rw [← coeff_coe, ← locator_mul_powerSum, PowerSeries.coeff_mul]
      refine Finset.sum_eq_zero fun p hp => ?_
      have hle : p.1 + p.2 = j := Finset.HasAntidiagonal.mem_antidiagonal.mp hp
      rw [PowerSeries.coeff_mk, hsum p.2 (by omega), mul_zero]
    · exact coeff_eq_zero_of_natDegree_lt
        ((natDegree_evaluator_lt ⟨x, hx⟩).trans_le (not_lt.mp hj))
  have heval := eval_inv_evaluator (z := z) h₀ hx
  rw [hzero, eval_zero, eq_comm, mul_eq_zero] at heval
  exact heval.resolve_right (eval_inv_locator_erase_ne_zero h₀ hx)

/-- The product of the linear factors of `n` consecutive powers of `a`, from the `b`-th on. -/
noncomputable def generator (a : F) (b n : ℕ) : F[X] :=
  ∏ i ∈ Finset.range n, (X - C (a ^ (b + i)))

section

variable {a : F} {b n : ℕ}

@[simp] theorem generator_zero : generator a b 0 = 1 := rfl

theorem generator_succ : generator a b (n + 1) = generator a b n * (X - C (a ^ (b + n))) :=
  Finset.prod_range_succ ..

theorem generator_monic : (generator a b n).Monic := monic_prod_X_sub_C _ _

theorem natDegree_generator : (generator a b n).natDegree = n := by
  rw [generator, natDegree_finsetProd_X_sub_C_eq_card, Finset.card_range]

theorem eval_generator {i : ℕ} (hi : i < n) : (generator a b n).eval (a ^ (b + i)) = 0 := by
  rw [generator, eval_prod]
  exact Finset.prod_eq_zero (Finset.mem_range.mpr hi) (by simp)

/-- No term of the generator is missing. -/
theorem coeff_generator_ne_zero [DecidableEq F] (ha : a ≠ 0)
    (hinj : Set.InjOn (a ^ ·) (Finset.range (n + 1))) {j : ℕ} (hj : j ≤ n) :
    (generator a b n).coeff j ≠ 0 := by
  intro hmissing
  -- The other terms are at most `n` weights whose first `n` power sums vanish.
  set p := generator a b n with hp
  set s := (Finset.range (n + 1)).erase j with hs
  have hinj' : Set.InjOn (a ^ ·) s := hinj.mono (by simp [hs])
  have h₀ : 0 ∉ s.image (a ^ ·) := by simp [ha]
  have hcard : (s.image (a ^ ·)).card = n := by
    rw [Finset.card_image_of_injOn hinj', hs, Finset.card_erase_of_mem (by simp; omega),
      Finset.card_range, Nat.add_sub_cancel]
  have hsum : ∀ i < (s.image (a ^ ·)).card, powerSum (s.image (a ^ ·))
      (weightAt s (a ^ ·) fun k => p.coeff k * a ^ (b * k)) i = 0 := by
    intro i hi
    rw [hcard] at hi
    have heval := eval_generator (a := a) (b := b) hi
    rw [← hp, eval_eq_sum_range, hp, natDegree_generator, ← hp,
      ← Finset.add_sum_erase _ _ (Finset.mem_range.mpr (Nat.lt_succ_of_le hj)), hmissing,
      zero_mul, zero_add] at heval
    rw [powerSum_image hinj', ← heval]
    refine Finset.sum_congr rfl fun k _ => ?_
    rw [mul_assoc, ← pow_mul, ← pow_mul, ← pow_add, add_mul, mul_comm i k]
  by_cases hjn : j = n
  · subst hjn
    have hlead := generator_monic (a := a) (b := b) (n := j)
    rw [Monic, leadingCoeff, natDegree_generator, ← hp, hmissing] at hlead
    exact zero_ne_one hlead
  · have hn : n ∈ s := by simp [hs, Ne.symm hjn]
    have hzero := weights_eq_zero h₀ hsum (Finset.mem_image_of_mem _ hn)
    rw [weightAt_apply hinj' hn] at hzero
    have hlead := generator_monic (a := a) (b := b) (n := n)
    rw [Monic, leadingCoeff, natDegree_generator, ← hp] at hlead
    rw [hlead, one_mul] at hzero
    exact pow_ne_zero _ ha hzero

end

end SourceCompanion.Syndrome
