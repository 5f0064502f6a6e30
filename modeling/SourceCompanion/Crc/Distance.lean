import SourceCompanion.Galois.Period

/-! # The distance of checksums

With an even number of terms in the polynomial, an odd number of wrong bits is always seen. With a
constant term, two wrong bits are seen unless they are a period of the register apart. So up to
three wrong bits are seen in messages no longer than the period.
-/

namespace SourceCompanion.Crc

open Galois Function

variable {w : ℕ}

/-! ## Parity -/

/-- Whether the number of set bits is odd. -/
def parity (bits : List Bool) : Bool := bits.foldr xor false

@[simp] theorem parity_cons (b : Bool) (bits : List Bool) :
    parity (b :: bits) = (b ^^ parity bits) := rfl

theorem parity_append (bs cs : List Bool) : parity (bs ++ cs) = (parity bs ^^ parity cs) := by
  induction bs with
  | nil => simp [parity]
  | cons b bs ih => simp [ih]

theorem parity_zipWith : ∀ {bs cs : List Bool}, bs.length = cs.length →
    parity (List.zipWith xor bs cs) = (parity bs ^^ parity cs)
  | [], [], _ => rfl
  | b :: bs, c :: cs, h => by
      rw [List.zipWith_cons_cons, parity_cons, parity_zipWith (Nat.succ.inj h), parity_cons,
        parity_cons, Bool.xor_assoc, Bool.xor_left_comm c, ← Bool.xor_assoc]

theorem parity_eq_decide (bits : List Bool) : parity bits = decide (bits.count true % 2 = 1) := by
  induction bits with
  | nil => rfl
  | cons b bits ih =>
    cases b with
    | false => simpa using ih
    | true =>
      rw [parity_cons, ih, List.count_cons_self, Bool.true_xor, ← decide_not]
      exact decide_eq_decide.mpr (by omega)

theorem parity_shiftLeft (s : BitVec w) :
    parity (topBits w (s <<< 1)) = (s.msb ^^ parity (topBits w s)) := by
  cases w with
  | zero => simp [topBits, parity, BitVec.msb]
  | succ v =>
    have hlast : (s <<< 1 <<< v).msb = false := by
      rw [← BitVec.shiftLeft_add, BitVec.shiftLeft_eq_zero (by omega)]
      exact BitVec.msb_zero
    rw [topBits_add v 1, parity_append, topBits, parity_cons]
    simp [topBits, hlast, parity]

section

variable {g : BitVec w} (heven : parity (topBits w g) = true)

include heven

theorem parity_bitStep (s : BitVec w) (b : Bool) :
    parity (topBits w (bitStep g s b)) = (parity (topBits w s) ^^ b) := by
  have hfeedback : parity (topBits w (feedback g (s.msb ^^ b))) = (s.msb ^^ b) := by
    cases s.msb ^^ b with
    | false => simp [parity_eq_decide, List.count_replicate]
    | true => exact heven
  rw [bitStep, ← zipWith_topBits, parity_zipWith (by simp), parity_shiftLeft, hfeedback]
  cases s.msb <;> simp [Bool.xor_comm]

theorem parity_serial (s : BitVec w) (bits : List Bool) :
    parity (topBits w (serial g s bits)) = (parity (topBits w s) ^^ parity bits) := by
  induction bits generalizing s with
  | nil => simp [parity]
  | cons b bits ih => rw [serial_cons, ih, parity_bitStep heven, parity_cons, Bool.xor_assoc]

theorem serial_ne_zero_of_odd {bits : List Bool} (h : bits.count true % 2 = 1) :
    serial g 0#w bits ≠ 0#w := by
  intro hzero
  have hparity := parity_serial heven 0#w bits
  rw [hzero, parity_eq_decide bits, decide_eq_true h] at hparity
  simp at hparity

end

/-! ## Two wrong bits -/

variable (g : BitVec w)

@[simp] theorem bitStep_zero_false : bitStep g 0#w false = 0#w := timesX_zero g

@[simp] theorem bitStep_zero_true : bitStep g 0#w true = g := by simp [bitStep]

@[simp] theorem serial_zeros (s : BitVec w) (k : ℕ) :
    serial g s (List.replicate k false) = (timesX g)^[k] s := by
  induction k generalizing s with
  | zero => rfl
  | succ k ih => exact ih _

theorem zipWith_zeros (bits : List Bool) :
    List.zipWith xor (List.replicate bits.length false) bits = bits := by
  induction bits with
  | nil => rfl
  | cons b bits ih =>
    rw [List.length_cons, List.replicate_succ, List.zipWith_cons_cons, ih, Bool.false_xor]

theorem serial_eq_xor (s : BitVec w) (bits : List Bool) :
    serial g s bits = (timesX g)^[bits.length] s ^^^ serial g 0#w bits := by
  have hlen : (List.replicate bits.length false).length = bits.length := List.length_replicate
  have h := serial_xor g s 0#w hlen
  rwa [BitVec.xor_zero, zipWith_zeros, serial_zeros] at h

theorem topBits_one (hw : 0 < w) : topBits w 1#w = List.replicate (w - 1) false ++ [true] := by
  have hzeros : topBits (w - 1) 1#w = List.replicate (w - 1) false := by
    rw [← topBits_zero (w := w)]
    refine topBits_congr fun i hi => ?_
    simp [BitVec.getMsbD, show w - 1 - i ≠ 0 by omega]
  have hlast : (1#w <<< (w - 1)).msb = true := by
    simp [BitVec.msb_eq_getLsbD_last, hw]
  conv_lhs => rw [show topBits w 1#w = topBits (w - 1 + 1) 1#w by rw [Nat.sub_add_cancel hw]]
  rw [topBits_add, hzeros, topBits, hlast]
  rfl

theorem power_width (hw : 0 < w) : power g w = g := by
  have h := serial_eq_xor g 1#w (topBits w 1#w)
  have hone : serial g 0#w (topBits w 1#w) = g := by
    rw [topBits_one hw, serial_append, serial_zeros, iterate_timesX_zero, serial_cons,
      bitStep_zero_true, serial_nil]
  rw [serial_topBits, BitVec.shiftLeft_eq_zero (Nat.le_refl w), length_topBits, hone] at h
  exact BitVec.xor_eq_zero_iff.mp h.symm

theorem serial_of_count_one {bits : List Bool} (h : bits.count true = 1) :
    ∃ k < bits.length, serial g 0#w bits = (timesX g)^[k] g := by
  induction bits with
  | nil => cases h
  | cons b bits ih =>
    cases b with
    | false =>
      obtain ⟨k, hk, heq⟩ := ih (by simpa using h)
      exact ⟨k, Nat.lt_succ_of_lt hk, by simpa using heq⟩
    | true =>
      have hzeros : bits = List.replicate bits.length false :=
        List.eq_replicate_iff.mpr ⟨rfl, fun b hb => by
          have hnone : bits.count true = 0 := by simpa using h
          exact Bool.eq_false_iff.mpr fun htrue => List.count_eq_zero.mp hnone (htrue ▸ hb)⟩
      refine ⟨bits.length, Nat.lt_succ_self _, ?_⟩
      rw [serial_cons, bitStep_zero_true]
      conv_lhs => rw [hzeros, serial_zeros]

theorem serial_of_count_two {bits : List Bool} (h : bits.count true = 2) :
    ∃ j k, j < k ∧ k < bits.length ∧
      serial g 0#w bits = (timesX g)^[k] g ^^^ (timesX g)^[j] g := by
  induction bits with
  | nil => cases h
  | cons b bits ih =>
    cases b with
    | false =>
      obtain ⟨j, k, hjk, hk, heq⟩ := ih (by simpa using h)
      exact ⟨j, k, hjk, Nat.lt_succ_of_lt hk, by simpa using heq⟩
    | true =>
      obtain ⟨j, hj, heq⟩ := serial_of_count_one g (show bits.count true = 1 by simpa using h)
      refine ⟨j, bits.length, hj, Nat.lt_succ_self _, ?_⟩
      rw [serial_cons, bitStep_zero_true, serial_eq_xor, heq]

/-! ## The period -/

section

variable {g} (hconst : g.getLsbD 0 = true)

include hconst

theorem iterate_timesX_injOn :
    Set.InjOn (fun k => (timesX g)^[k] g) (Set.Iio (minimalPeriod (timesX g) 1#w)) := by
  have hw : 0 < w := Nat.pos_of_ne_zero fun h => by
    subst h
    simp at hconst
  have hinj : Injective (timesX g) := bitStep_injective hconst false
  have hpower (k : ℕ) : (timesX g)^[k] g = (timesX g)^[w] (power g k) := by
    rw [iterate_timesX_power, Nat.add_comm, ← iterate_timesX_power, power_width g hw]
  intro j hj k hk h
  simp only [hpower] at h
  exact iterate_injOn_Iio_minimalPeriod hj hk (hinj.iterate w h)

/-- Up to three wrong bits are seen in messages that are no longer than the period. -/
theorem serial_ne_of_count (heven : parity (topBits w g) = true) (s : BitVec w)
    {bs cs : List Bool} (hlen : bs.length = cs.length)
    (hshort : bs.length ≤ minimalPeriod (timesX g) 1#w) (hne : bs ≠ cs)
    (hfew : (List.zipWith xor bs cs).count true ≤ 3) : serial g s bs ≠ serial g s cs := by
  intro h
  have hlength : (List.zipWith xor bs cs).length = bs.length := by simp [hlen]
  have hzero : serial g 0#w (List.zipWith xor bs cs) = 0#w := by
    rw [serial_zipWith_xor g s hlen, h, BitVec.xor_self]
  have hsome : (List.zipWith xor bs cs).count true ≠ 0 := fun hnone => by
    refine hne (eq_of_zipWith_xor hlen (List.eq_replicate_iff.mpr ⟨hlength, fun b hb => ?_⟩))
    exact Bool.eq_false_iff.mpr fun htrue => List.count_eq_zero.mp hnone (htrue ▸ hb)
  by_cases htwo : (List.zipWith xor bs cs).count true = 2
  · obtain ⟨j, k, hjk, hk, heq⟩ := serial_of_count_two g htwo
    rw [hzero] at heq
    have hk' : k < minimalPeriod (timesX g) 1#w := by omega
    have := iterate_timesX_injOn hconst hk' (Set.mem_Iio.mpr (hjk.trans hk'))
      (BitVec.xor_eq_zero_iff.mp heq.symm)
    omega
  · exact serial_ne_zero_of_odd heven (by omega) hzero

end

theorem serial_of_apart (hw : 0 < w) {n : ℕ} (hperiod : power g (n + 1) = 1#w) (m : ℕ) :
    serial g 0#w (true :: (List.replicate n false ++ true :: List.replicate m false)) = 0#w := by
  have hback : timesX g ((timesX g)^[n] g) = g := by
    have h := iterate_timesX_power g (n + 1) w
    rw [Nat.add_comm (n + 1) w, ← iterate_timesX_power g w, hperiod, power_width g hw,
      iterate_succ_apply'] at h
    exact h.trans (power_width g hw)
  have hstep : bitStep g ((timesX g)^[n] g) true = 0#w := by
    have h := bitStep_xor g ((timesX g)^[n] g) 0#w false true
    rw [BitVec.xor_zero, bitStep_zero_true] at h
    exact h.trans (BitVec.xor_eq_zero_iff.mpr hback)
  rw [serial_cons, bitStep_zero_true, serial_append, serial_zeros, serial_cons, hstep,
    serial_zeros, iterate_timesX_zero]

end SourceCompanion.Crc
