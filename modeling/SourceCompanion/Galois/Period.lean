import SourceCompanion.Galois.ShiftRegister

/-! # The period of a shift register

A state acts on the others by the sum of their shifts at its bits. So the powers of the
indeterminate are squared and multiplied, and a period is found without going through it.
-/

namespace SourceCompanion.Galois

open Crc Function

variable {w : ℕ} (g : BitVec w)

/-- The sum of the shifts of a state at the set bits, most significant bit first. -/
def shiftSum (a : BitVec w) (bits : List Bool) : BitVec w :=
  bits.foldl (fun s b => timesX g s ^^^ feedback a b) 0#w

def product (a s : BitVec w) : BitVec w := shiftSum g a (topBits w s)

theorem shiftSum_append_singleton (a : BitVec w) (bits : List Bool) (b : Bool) :
    shiftSum g a (bits ++ [b]) = timesX g (shiftSum g a bits) ^^^ feedback a b := by
  rw [shiftSum, List.foldl_append]
  rfl

theorem iterate_timesX_feedback (k : ℕ) (a : BitVec w) (b : Bool) :
    (timesX g)^[k] (feedback a b) = feedback ((timesX g)^[k] a) b := by
  cases b with
  | false => exact iterate_timesX_zero g k
  | true => rfl

theorem iterate_timesX_shiftSum (k : ℕ) (a : BitVec w) (bits : List Bool) :
    (timesX g)^[k] (shiftSum g a bits) = shiftSum g ((timesX g)^[k] a) bits := by
  induction bits using List.reverseRecOn with
  | nil => exact iterate_timesX_zero g k
  | append_singleton bits b ih =>
    rw [shiftSum_append_singleton, shiftSum_append_singleton, iterate_timesX_xor,
      iterate_timesX_feedback, ← ih, ← iterate_succ_apply, iterate_succ_apply']

theorem timesX_of_msb {s : BitVec w} (h : s.msb = false) : timesX g s = s <<< 1 := by
  rw [timesX, bitStep, h]
  simp

/-- The leading bits of a state are the state itself, as far as they go. -/
theorem shiftSum_topBits (s : BitVec w) {k : ℕ} (hk : k ≤ w) :
    shiftSum g 1#w (topBits k s) = s >>> (w - k) := by
  induction k with
  | zero =>
    rw [Nat.sub_zero, BitVec.ushiftRight_eq_zero (Nat.le_refl w)]
    rfl
  | succ k ih =>
    have hmsb : (s >>> (w - k)).msb = false := by
      simp [BitVec.msb_ushiftRight, show 0 < w - k by omega]
    rw [topBits_add, show topBits 1 (s <<< k) = [(s <<< k).msb] from rfl,
      shiftSum_append_singleton, ih (by omega), timesX_of_msb g hmsb]
    refine BitVec.eq_of_getLsbD_eq fun i hi => ?_
    cases i with
    | zero =>
      have hbit : (s <<< k).msb = s.getLsbD (w - (k + 1)) := by
        rw [BitVec.msb_eq_getMsbD_zero, BitVec.getMsbD_shiftLeft, BitVec.getMsbD]
        simp [show k < w by omega, show w - 1 - k = w - (k + 1) by omega]
      simp [hbit, getLsbD_feedback_zero (g := 1#w) (by simp; omega)]
    | succ i =>
      have hplace : w - k + i = w - (k + 1) + (i + 1) := by omega
      cases (s <<< k).msb <;> simp [hi, hplace]

theorem iterate_timesX_eq (k : ℕ) (s : BitVec w) :
    (timesX g)^[k] s = product g (power g k) s := by
  have hself := shiftSum_topBits g s (Nat.le_refl w)
  rw [Nat.sub_self, BitVec.ushiftRight_zero] at hself
  conv_lhs => rw [← hself]
  exact iterate_timesX_shiftSum g k 1#w (topBits w s)

theorem power_add (j k : ℕ) : power g (j + k) = product g (power g j) (power g k) := by
  rw [← iterate_timesX_power, iterate_timesX_eq]

/-- The power for an exponent in binary digits, most significant digit first. -/
def powerOfBits (bits : List Bool) : BitVec w :=
  bits.foldl (fun a b => if b then timesX g (product g a a) else product g a a) 1#w

theorem powerOfBits_eq (bits : List Bool) :
    powerOfBits g bits = power g (bits.foldl (fun n b => 2 * n + b.toNat) 0) := by
  induction bits using List.reverseRecOn with
  | nil => rfl
  | append_singleton bits b ih =>
    rw [powerOfBits, List.foldl_append, ← powerOfBits, ih, List.foldl_append]
    generalize bits.foldl (fun n b => 2 * n + b.toNat) 0 = n
    rw [List.foldl_cons, List.foldl_nil, ← power_add, ← Nat.two_mul]
    cases b with
    | false => rfl
    | true => exact (power_succ g (2 * n)).symm

end SourceCompanion.Galois
