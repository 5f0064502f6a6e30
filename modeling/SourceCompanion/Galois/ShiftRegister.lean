import Mathlib.Algebra.CharP.Two
import Mathlib.Algebra.Field.Basic
import Mathlib.Data.BitVec
import Mathlib.Dynamics.PeriodicPts.Defs
import Mathlib.Order.Interval.Finset.Nat
import SourceCompanion.Crc.Serial

/-! # The field of a shift register

A register of `w` bits with a feedback polynomial takes zeros. If it runs through all of its
nonzero states, the states are the powers of the indeterminate, and with the zero they are a
field of characteristic two.
-/

namespace SourceCompanion.Galois

open Crc Function

variable {w : ℕ}

/-! ## The powers of the indeterminate -/

section

variable (g : BitVec w)

def timesX (s : BitVec w) : BitVec w := bitStep g s false

def power (k : ℕ) : BitVec w := (timesX g)^[k] 1#w

theorem timesX_xor (s t : BitVec w) : timesX g (s ^^^ t) = timesX g s ^^^ timesX g t :=
  bitStep_xor g s t false false

theorem timesX_zero : timesX g 0#w = 0#w := by
  have h := timesX_xor g 0#w 0#w
  rwa [BitVec.xor_self, BitVec.xor_self] at h

theorem iterate_timesX_xor (k : ℕ) (s t : BitVec w) :
    (timesX g)^[k] (s ^^^ t) = (timesX g)^[k] s ^^^ (timesX g)^[k] t := by
  induction k generalizing s t with
  | zero => rfl
  | succ k ih => rw [iterate_succ_apply, timesX_xor, ih, iterate_succ_apply, iterate_succ_apply]

theorem iterate_timesX_zero (k : ℕ) : (timesX g)^[k] 0#w = 0#w :=
  iterate_fixed (timesX_zero g) k

theorem iterate_timesX_power (j k : ℕ) : (timesX g)^[j] (power g k) = power g (j + k) :=
  (iterate_add_apply ..).symm

theorem power_succ (k : ℕ) : power g (k + 1) = timesX g (power g k) := iterate_succ_apply' ..

/-- The period is a number of turns after which the register is back, unless it is back after one
of its largest parts. -/
theorem minimalPeriod_of_power {n : ℕ} (hperiod : power g n = 1#w)
    (hparts : ∀ p, p.Prime → p ∣ n → power g (n / p) ≠ 1#w) :
    minimalPeriod (timesX g) 1#w = n := by
  have hdvd : minimalPeriod (timesX g) 1#w ∣ n := IsPeriodicPt.minimalPeriod_dvd hperiod
  by_contra hne
  obtain ⟨q, hq⟩ := hdvd
  have hq₁ : q ≠ 1 := fun h => hne (by rw [hq, h, Nat.mul_one])
  obtain ⟨p, hp, r, rfl⟩ := Nat.exists_prime_and_dvd hq₁
  have hpart : n / p = minimalPeriod (timesX g) 1#w * r := by
    rw [hq, Nat.mul_left_comm, Nat.mul_div_cancel_left _ hp.pos]
  refine hparts p hp (by rw [hq]; exact (Nat.dvd_mul_right p r).mul_left _) ?_
  rw [hpart]
  exact (isPeriodicPt_minimalPeriod (timesX g) 1#w).mul_const r

end

/-- The register runs through all of its nonzero states. -/
class Primitive (g : BitVec w) : Prop where
  width_pos : 0 < w
  minimalPeriod_eq : minimalPeriod (timesX g) 1#w = 2 ^ w - 1

namespace Primitive

variable (g : BitVec w) [Primitive g]

include g in
theorem two_le_two_pow : 2 ≤ 2 ^ w := Nat.le_self_pow (width_pos g).ne' 2

include g in
theorem one_ne_zero : (1#w : BitVec w) ≠ 0#w := by
  intro h
  have hw := congrArg BitVec.toNat h
  rw [BitVec.toNat_ofNat, Nat.mod_eq_of_lt (two_le_two_pow g)] at hw
  simp at hw

theorem power_period : power g (2 ^ w - 1) = 1#w := by
  rw [← minimalPeriod_eq (g := g)]
  exact iterate_minimalPeriod

theorem power_mod (k : ℕ) : power g (k % (2 ^ w - 1)) = power g k := by
  have h := iterate_mod_minimalPeriod_eq (f := timesX g) (x := 1#w) (n := k)
  rwa [minimalPeriod_eq] at h

theorem power_ne_zero (k : ℕ) : power g k ≠ 0#w := by
  intro h
  -- A register that is zero stays so, and it would have to return to one.
  have hone : power g (k * (2 ^ w - 1)) = 1#w := by
    rw [← power_mod, Nat.mul_mod_left]
    rfl
  have hle : k ≤ k * (2 ^ w - 1) :=
    Nat.le_mul_of_pos_right k (by have := two_le_two_pow g; omega)
  rw [← Nat.sub_add_cancel hle, ← iterate_timesX_power, h, iterate_timesX_zero] at hone
  exact one_ne_zero g hone.symm

theorem power_injOn : Set.InjOn (power g) (Finset.range (2 ^ w - 1)) := by
  have h := iterate_injOn_Iio_minimalPeriod (f := timesX g) (x := 1#w)
  rw [minimalPeriod_eq] at h
  rwa [Finset.coe_range]

theorem exists_power {s : BitVec w} (hs : s ≠ 0#w) : ∃ k < 2 ^ w - 1, power g k = s := by
  -- There are as many powers as nonzero states.
  have hmaps : Set.MapsTo (fun k => (power g k).toNat) (Finset.range (2 ^ w - 1))
      (Finset.Ico 1 (2 ^ w)) := by
    intro k _
    have hne : (power g k).toNat ≠ 0 := fun h => power_ne_zero g k (BitVec.eq_of_toNat_eq h)
    have := (power g k).isLt
    simp only [Finset.coe_Ico, Set.mem_Ico]
    omega
  have hinj : Set.InjOn (fun k => (power g k).toNat) (Finset.range (2 ^ w - 1)) :=
    fun j hj k hk h => power_injOn g hj hk (BitVec.eq_of_toNat_eq h)
  have hne : s.toNat ≠ 0 := fun h => hs (BitVec.eq_of_toNat_eq h)
  obtain ⟨k, hk, h⟩ := Finset.surjOn_of_injOn_of_card_le _ hmaps hinj (by simp)
    (show s.toNat ∈ _ by have := s.isLt; simp only [Finset.coe_Ico, Set.mem_Ico]; omega)
  exact ⟨k, Finset.mem_range.mp hk, BitVec.eq_of_toNat_eq h⟩

omit [Primitive g] in
/-- The register is primitive if it returns after all nonzero states, and after none of the
largest parts of their number. -/
theorem of_power (hw : 0 < w) (hperiod : power g (2 ^ w - 1) = 1#w)
    (hparts : ∀ p, p.Prime → p ∣ 2 ^ w - 1 → power g ((2 ^ w - 1) / p) ≠ 1#w) : Primitive g :=
  ⟨hw, minimalPeriod_of_power g hperiod hparts⟩

noncomputable def log (s : BitVec w) : ℕ :=
  if h : s = 0#w then 0 else (exists_power g h).choose

theorem power_log {s : BitVec w} (hs : s ≠ 0#w) : power g (log g s) = s := by
  rw [log, dif_neg hs]
  exact (exists_power g hs).choose_spec.2

end Primitive

/-! ## The field -/

structure GF (g : BitVec w) where
  bits : BitVec w
  deriving DecidableEq

namespace GF

open Primitive

section

variable {g : BitVec w}

theorem bits_injective : Injective (bits : GF g → BitVec w) := fun ⟨_⟩ ⟨_⟩ h => congrArg mk h

instance : Zero (GF g) := ⟨⟨0#w⟩⟩
instance : One (GF g) := ⟨⟨1#w⟩⟩
instance : Add (GF g) := ⟨fun a b => ⟨a.bits ^^^ b.bits⟩⟩
instance : Neg (GF g) := ⟨fun a => a⟩

@[simp] theorem bits_zero : (0 : GF g).bits = 0#w := rfl
@[simp] theorem bits_one : (1 : GF g).bits = 1#w := rfl
@[simp] theorem bits_add (a b : GF g) : (a + b).bits = a.bits ^^^ b.bits := rfl
@[simp] theorem bits_neg (a : GF g) : (-a).bits = a.bits := rfl

theorem bits_eq_zero_iff {a : GF g} : a.bits = 0#w ↔ a = 0 :=
  ⟨fun h => bits_injective h, fun h => congrArg bits h⟩

def ofExp (g : BitVec w) (k : ℕ) : GF g := ⟨power g k⟩

end

section

variable {g : BitVec w} [Primitive g]

theorem ofExp_ne_zero (k : ℕ) : ofExp g k ≠ 0 := fun h => power_ne_zero g k (congrArg bits h)

theorem exists_ofExp {a : GF g} (ha : a ≠ 0) : ∃ k < 2 ^ w - 1, ofExp g k = a := by
  obtain ⟨k, hk, h⟩ := exists_power g (mt bits_eq_zero_iff.mp ha)
  exact ⟨k, hk, bits_injective h⟩

theorem ofExp_mod (k : ℕ) : ofExp g (k % (2 ^ w - 1)) = ofExp g k :=
  bits_injective (power_mod g k)

noncomputable instance : Mul (GF g) :=
  ⟨fun a b => if a = 0 then 0 else ⟨(timesX g)^[log g a.bits] b.bits⟩⟩

theorem mul_def (a b : GF g) :
    a * b = if a = 0 then 0 else ⟨(timesX g)^[log g a.bits] b.bits⟩ := rfl

theorem ofExp_mul (k : ℕ) (b : GF g) : ofExp g k * b = ⟨(timesX g)^[k] b.bits⟩ := by
  rw [mul_def, if_neg (ofExp_ne_zero k)]
  congr 1
  by_cases hb : b.bits = 0#w
  · rw [hb, iterate_timesX_zero, iterate_timesX_zero]
  · obtain ⟨j, -, hj⟩ := exists_power g hb
    have hlog : power g (log g (power g k)) = power g k := power_log g (power_ne_zero g k)
    change (timesX g)^[log g (power g k)] b.bits = _
    rw [← hj, iterate_timesX_power, iterate_timesX_power, Nat.add_comm _ j, Nat.add_comm k j,
      ← iterate_timesX_power, hlog, iterate_timesX_power]

theorem ofExp_mul_ofExp (j k : ℕ) : ofExp g j * ofExp g k = ofExp g (j + k) := by
  rw [ofExp_mul]
  exact bits_injective (iterate_timesX_power g j k)

theorem zero_mul' (a : GF g) : 0 * a = 0 := if_pos rfl

theorem mul_zero' (a : GF g) : a * 0 = 0 := by
  rw [mul_def]
  split
  · rfl
  · exact bits_injective (iterate_timesX_zero g _)

theorem mul_comm' (a b : GF g) : a * b = b * a := by
  by_cases ha : a = 0
  · rw [ha, zero_mul', mul_zero']
  by_cases hb : b = 0
  · rw [hb, zero_mul', mul_zero']
  obtain ⟨j, -, rfl⟩ := exists_ofExp ha
  obtain ⟨k, -, rfl⟩ := exists_ofExp hb
  rw [ofExp_mul_ofExp, ofExp_mul_ofExp, Nat.add_comm]

theorem mul_assoc' (a b c : GF g) : a * b * c = a * (b * c) := by
  by_cases ha : a = 0
  · rw [ha, zero_mul', zero_mul', zero_mul']
  by_cases hb : b = 0
  · rw [hb, mul_zero', zero_mul', mul_zero']
  obtain ⟨j, -, rfl⟩ := exists_ofExp ha
  obtain ⟨k, -, rfl⟩ := exists_ofExp hb
  rw [ofExp_mul_ofExp, ofExp_mul, ofExp_mul, ofExp_mul, iterate_add_apply]

theorem mul_add' (a b c : GF g) : a * (b + c) = a * b + a * c := by
  by_cases ha : a = 0
  · rw [ha, zero_mul', zero_mul', zero_mul']
    exact bits_injective (BitVec.xor_self).symm
  obtain ⟨k, -, rfl⟩ := exists_ofExp ha
  simp only [ofExp_mul]
  exact bits_injective (iterate_timesX_xor g k _ _)

theorem one_mul' (a : GF g) : 1 * a = a := ofExp_mul 0 a

noncomputable instance : Inv (GF g) :=
  ⟨fun a => if a = 0 then 0 else ofExp g ((2 ^ w - 2) * log g a.bits)⟩

theorem inv_def (a : GF g) :
    a⁻¹ = if a = 0 then 0 else ofExp g ((2 ^ w - 2) * log g a.bits) := rfl

theorem mul_inv' {a : GF g} (ha : a ≠ 0) : a * a⁻¹ = 1 := by
  have hlog : ofExp g (log g a.bits) = a :=
    bits_injective (power_log g (mt bits_eq_zero_iff.mp ha))
  have hexp : log g a.bits + (2 ^ w - 2) * log g a.bits = (2 ^ w - 1) * log g a.bits := by
    rw [Nat.add_comm, ← Nat.succ_mul]
    congr 1
    have := two_le_two_pow g
    omega
  rw [inv_def, if_neg ha]
  nth_rewrite 1 [← hlog]
  rw [ofExp_mul_ofExp, hexp, ← ofExp_mod, Nat.mul_mod_right]
  rfl

noncomputable instance : Field (GF g) where
  add_assoc a b c := bits_injective (BitVec.xor_assoc ..)
  zero_add a := bits_injective BitVec.zero_xor
  add_zero a := bits_injective BitVec.xor_zero
  add_comm a b := bits_injective (BitVec.xor_comm ..)
  neg_add_cancel a := bits_injective BitVec.xor_self
  nsmul := nsmulRec
  zsmul := zsmulRec
  zero_mul := zero_mul'
  mul_zero := mul_zero'
  mul_assoc := mul_assoc'
  mul_comm := mul_comm'
  one_mul := one_mul'
  mul_one a := by rw [mul_comm', one_mul']
  left_distrib := mul_add'
  right_distrib a b c := by rw [mul_comm', mul_add', mul_comm' c, mul_comm' c]
  exists_pair_ne := ⟨0, 1, fun h => one_ne_zero g (congrArg bits h).symm⟩
  mul_inv_cancel _ := mul_inv'
  inv_zero := if_pos rfl
  nnqsmul := _
  qsmul := _

omit [Primitive g] in
theorem add_self_eq_zero (a : GF g) : a + a = 0 := bits_injective BitVec.xor_self

instance : CharP (GF g) 2 := CharTwo.of_one_ne_zero_of_two_eq_zero one_ne_zero
  (by rw [← one_add_one_eq_two]; exact add_self_eq_zero 1)

def alpha (g : BitVec w) : GF g := ofExp g 1

theorem alpha_pow (k : ℕ) : alpha g ^ k = ofExp g k := by
  induction k with
  | zero => rfl
  | succ k ih => rw [pow_succ, ih, alpha, ofExp_mul_ofExp]

theorem alpha_pow_eq_iff {j k : ℕ} : alpha g ^ j = alpha g ^ k ↔ j ≡ k [MOD 2 ^ w - 1] := by
  have hpos : 0 < 2 ^ w - 1 := by have := two_le_two_pow g; omega
  rw [alpha_pow, alpha_pow, ← ofExp_mod j, ← ofExp_mod k]
  constructor
  · exact fun h => power_injOn g (by simpa using Nat.mod_lt j hpos)
      (by simpa using Nat.mod_lt k hpos) (congrArg bits h)
  · exact fun h => congrArg (ofExp g) h

end

end GF

end SourceCompanion.Galois
