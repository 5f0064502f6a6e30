import Mathlib.Data.Int.ModEq
import Mathlib.Data.Int.Interval
import Mathlib.Algebra.Order.Ring.Int

/-! # Distances on a cycle

Numbers that only differ by multiples of a modulus share one index on the cycle.
Inside a window no longer than the modulus the index determines the number, and
the forward distance between two indices is the difference of their numbers.
-/

namespace SourceCompanion.Cyclic

variable {M a b n m : ℤ}

/-- The number of forward steps from one index to another. -/
def dist (M a b : ℤ) : ℤ := (b - a) % M

theorem dist_nonneg (hM : 0 < M) : 0 ≤ dist M a b := Int.emod_nonneg _ hM.ne'

theorem dist_lt (hM : 0 < M) : dist M a b < M := Int.emod_lt_of_pos _ hM

@[simp] theorem dist_emod_left : dist M (a % M) b = dist M a b := by
  simp [dist, Int.sub_emod]

@[simp] theorem dist_emod_right : dist M a (b % M) = dist M a b := by
  simp [dist, Int.sub_emod]

theorem dist_of_window (h : a ≤ b) (hb : b < a + M) : dist M a b = b - a :=
  Int.emod_eq_of_lt (by omega) (by omega)

/-- A step towards a different index shortens the distance by one. -/
theorem dist_succ_left (hM : 0 < M) (h : 0 < dist M a b) :
    dist M (a + 1) b = dist M a b - 1 := by
  have hlt : dist M a b < M := dist_lt hM
  have he : b - (a + 1) = (dist M a b - 1) + M * ((b - a) / M) := by
    have := Int.emod_add_mul_ediv (b - a) M
    unfold dist; omega
  rw [dist, he, Int.add_mul_emod_self_left]
  exact Int.emod_eq_of_lt (by omega) (by omega)

theorem eq_of_dist_eq_zero (ha : 0 ≤ a ∧ a < M) (hb : 0 ≤ b ∧ b < M) (h : dist M a b = 0) :
    a = b := by
  obtain ⟨c, hc⟩ := Int.dvd_of_emod_eq_zero h
  have hz : b - a = 0 := Int.eq_zero_of_abs_lt_dvd ⟨c, hc⟩ (abs_lt.mpr ⟨by omega, by omega⟩)
  omega

theorem eq_of_emod_eq (h : n % M = m % M) (hn : a ≤ n ∧ n < a + M) (hm : a ≤ m ∧ m < a + M) :
    n = m := by
  have hd : M ∣ n - m := Int.ModEq.dvd (Int.ModEq.symm h)
  have := Int.eq_zero_of_abs_lt_dvd hd (abs_lt.mpr ⟨by omega, by omega⟩)
  omega

theorem eq_of_dist_eq {c : ℤ} (hb : 0 ≤ b ∧ b < M) (hc : 0 ≤ c ∧ c < M)
    (h : dist M a b = dist M a c) : b = c := by
  have hshift : b - a ≡ c - a [ZMOD M] := h
  have hmod : b ≡ c [ZMOD M] := by simpa using hshift.add_right a
  exact eq_of_emod_eq (a := 0) hmod (by omega) (by omega)

end SourceCompanion.Cyclic
