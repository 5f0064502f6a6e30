import Mathlib.Data.List.GetD
import Mathlib.Data.Nat.Bitwise
import Mathlib.Data.Nat.ModEq
import SourceCompanion.Fec.InitRs
import SourceCompanion.Galois.ShiftRegister

/-! # The tables of the field

For a primitive polynomial the initialisation fills the two tables with the powers of the
indeterminate and with their exponents. So sums of exponents, reduced, stand for products. The
initialisation checks that the register is back at one once the tables are full, but it may have
been back before, and then the tables do not undo each other.
-/

namespace SourceCompanion.Fec

open Galois Crc Function

/-! ## Reducing exponents -/

theorem mod_two_pow_sub_one (mm y : ℕ) :
    y >>> mm + (y &&& (2 ^ mm - 1)) ≡ y [MOD 2 ^ mm - 1] := by
  have hone : 2 ^ mm ≡ 1 [MOD 2 ^ mm - 1] := by
    have hpos := Nat.two_pow_pos mm
    exact (Nat.modEq_iff_dvd' hpos).mpr dvd_rfl |>.symm
  rw [Nat.shiftRight_eq_div_pow, Nat.and_two_pow_sub_one_eq_mod]
  calc y / 2 ^ mm + y % 2 ^ mm
      = 1 * (y / 2 ^ mm) + y % 2 ^ mm := by rw [Nat.one_mul]
    _ ≡ 2 ^ mm * (y / 2 ^ mm) + y % 2 ^ mm [MOD 2 ^ mm - 1] :=
        (hone.symm.mul_right _).add_right _
    _ = y := Nat.div_add_mod y _

theorem modnnLoop_eq {mm : ℕ} (hmm : 0 < mm) (turns : ℕ) {x : ℕ} (hx : x ≤ turns) :
    modnnLoop mm (2 ^ mm - 1) turns x = x % (2 ^ mm - 1) := by
  have hpos : 2 ≤ 2 ^ mm := Nat.le_self_pow hmm.ne' 2
  induction turns generalizing x with
  | zero =>
    obtain rfl : x = 0 := by omega
    rw [modnnLoop, Nat.zero_mod]
  | succ turns ih =>
    rw [modnnLoop]
    split
    · have hle : (x - (2 ^ mm - 1)) >>> mm + (x - (2 ^ mm - 1) &&& (2 ^ mm - 1)) ≤ turns := by
        have hdiv := Nat.div_add_mod (x - (2 ^ mm - 1)) (2 ^ mm)
        have hmul := Nat.le_mul_of_pos_left ((x - (2 ^ mm - 1)) / 2 ^ mm) (Nat.two_pow_pos mm)
        rw [Nat.shiftRight_eq_div_pow, Nat.and_two_pow_sub_one_eq_mod]
        omega
      simp only
      rw [ih hle, mod_two_pow_sub_one, ← Nat.mod_eq_sub_mod ‹_›]
    · exact (Nat.mod_eq_of_lt (by omega)).symm

/-! ## Filling the tables -/

/-- The register of the source is the shift register of the field. -/
theorem ofNat_nextPower {w : ℕ} (hw : 0 < w) (gfpoly sr : ℕ) :
    BitVec.ofNat w (nextPower w gfpoly sr) =
      timesX (BitVec.ofNat w gfpoly) (BitVec.ofNat w sr) := by
  have hbit : (sr <<< 1 &&& 1 <<< w ≠ 0) ↔ (BitVec.ofNat w sr).msb = true := by
    rw [BitVec.msb_eq_getLsbD_last, BitVec.getLsbD_ofNat, Nat.one_shiftLeft, Nat.and_two_pow]
    simp [Nat.testBit_shiftLeft, hw, Nat.one_le_iff_ne_zero, hw.ne']
  have hshift : BitVec.ofNat w (sr <<< 1) = BitVec.ofNat w sr <<< 1 := by
    apply BitVec.eq_of_toNat_eq
    simp [Nat.shiftLeft_eq]
  have hmask (x : ℕ) : BitVec.ofNat w (x &&& (1 <<< w - 1)) = BitVec.ofNat w x := by
    apply BitVec.eq_of_toNat_eq
    simp [Nat.one_shiftLeft, Nat.and_two_pow_sub_one_eq_mod]
  rw [nextPower, hmask, timesX, bitStep, Bool.xor_false]
  split
  · rw [hbit.mp ‹_›, BitVec.ofNat_xor, hshift, feedback_true]
  · rw [Bool.eq_false_iff.mpr (mt hbit.mpr ‹_›), hshift, feedback_false, BitVec.xor_zero]

theorem nextPower_lt (w gfpoly sr : ℕ) : nextPower w gfpoly sr < 2 ^ w := by
  rw [nextPower, Nat.one_shiftLeft, Nat.and_two_pow_sub_one_eq_mod]
  exact Nat.mod_lt _ (Nat.two_pow_pos w)

theorem getD_set {α : Type*} (l : List α) (i j : ℕ) (a d : α) :
    (l.set i a).getD j d = if i = j ∧ j < l.length then a else l.getD j d := by
  rw [List.getD_eq_getElem?_getD, List.getElem?_set, List.getD_eq_getElem?_getD]
  by_cases hij : i = j
  · subst hij
    by_cases hi : i < l.length <;> simp [hi]
  · simp [hij]

@[simp] theorem getD_replicate {α : Type*} (n j : ℕ) (d : α) :
    (List.replicate n d).getD j d = d := by
  rw [List.getD_eq_getElem?_getD, List.getElem?_replicate]
  split <;> rfl

/-- The table of the powers after `n` of them, whatever the polynomial. -/
structure Powers (g : BitVec 8) (n : ℕ) (t : Tables) : Prop where
  sr : t.sr = (power g n).toNat
  length_alphaTo : t.alphaTo.length = 256
  alphaTo : ∀ i < n, t.alphaTo.getD i 0 = UInt8.ofBitVec (power g i)

theorem Powers.enter {gfpoly n : ℕ} (hn : n < 255) {t : Tables}
    (h : Powers (BitVec.ofNat 8 gfpoly) n t) :
    Powers (BitVec.ofNat 8 gfpoly) (n + 1) (t.enter 8 gfpoly n) := by
  set g := BitVec.ofNat 8 gfpoly with hg
  refine ⟨?_, by simp [Tables.enter, h.length_alphaTo], fun i hi => ?_⟩
  · have hnext := ofNat_nextPower (w := 8) (by decide) gfpoly t.sr
    rw [h.sr, BitVec.ofNat_toNat, BitVec.setWidth_eq, ← hg, ← power_succ] at hnext
    rw [← hnext, BitVec.toNat_ofNat, Tables.enter, h.sr, Nat.mod_eq_of_lt (nextPower_lt ..)]
  · rw [Tables.enter, getD_set, h.length_alphaTo, h.sr]
    split
    · obtain rfl : n = i := ‹_ ∧ _›.1
      exact UInt8.toBitVec_inj.mp (by simp)
    · exact h.alphaTo i (by omega)

theorem powers_tables (gfpoly : ℕ) : Powers (BitVec.ofNat 8 gfpoly) 255 (tables 8 gfpoly) := by
  have hloop (n : ℕ) (hn : n ≤ 255) : Powers (BitVec.ofNat 8 gfpoly) n
      ((List.range n).foldl (Tables.enter 8 gfpoly) {
        sr := 1
        indexOf := (List.replicate 256 0).set 0 255
        alphaTo := (List.replicate 256 0).set 255 0 }) := by
    induction n with
    | zero =>
      exact ⟨rfl, List.length_set.trans List.length_replicate,
        fun i hi => absurd hi (Nat.not_lt_zero i)⟩
    | succ n ih =>
      rw [List.range_succ, List.foldl_concat]
      exact (ih (by omega)).enter hn
  exact hloop 255 le_rfl

/-- The table of the logarithms as well, if no power returns. -/
structure Filled (g : BitVec 8) (n : ℕ) (t : Tables) : Prop extends Powers g n t where
  length_indexOf : t.indexOf.length = 256
  indexOf : ∀ i < n, t.indexOf.getD (power g i).toNat 0 = i
  indexOf_zero : t.indexOf.getD 0 0 = 255

section

variable {gfpoly : ℕ} [Primitive (BitVec.ofNat 8 gfpoly)]

theorem Filled.enter {n : ℕ} (hn : n < 255) {t : Tables}
    (h : Filled (BitVec.ofNat 8 gfpoly) n t) :
    Filled (BitVec.ofNat 8 gfpoly) (n + 1) (t.enter 8 gfpoly n) := by
  refine ⟨h.toPowers.enter hn, by simp [Tables.enter, h.length_indexOf], fun i hi => ?_, ?_⟩
  · rw [Tables.enter, getD_set, h.sr, h.length_indexOf]
    have hlt := (power (BitVec.ofNat 8 gfpoly) i).isLt
    split
    · have heq := BitVec.eq_of_toNat_eq ‹_ ∧ _›.1
      exact Primitive.power_injOn _ (by simpa using hn) (by simp; omega) heq
    · refine h.indexOf i ?_
      rcases Nat.lt_succ_iff_lt_or_eq.mp hi with hin | rfl
      · exact hin
      · exact absurd (And.intro rfl hlt) ‹_›
  · have hpos : (power (BitVec.ofNat 8 gfpoly) n).toNat ≠ 0 := fun h =>
      Primitive.power_ne_zero _ n (BitVec.eq_of_toNat_eq h)
    rw [Tables.enter, getD_set, h.sr, if_neg fun h => hpos h.1]
    exact h.indexOf_zero

theorem filled_tables (gfpoly : ℕ) [Primitive (BitVec.ofNat 8 gfpoly)] :
    Filled (BitVec.ofNat 8 gfpoly) 255 (tables 8 gfpoly) := by
  have hloop (n : ℕ) (hn : n ≤ 255) : Filled (BitVec.ofNat 8 gfpoly) n
      ((List.range n).foldl (Tables.enter 8 gfpoly) {
        sr := 1
        indexOf := (List.replicate 256 0).set 0 255
        alphaTo := (List.replicate 256 0).set 255 0 }) := by
    induction n with
    | zero =>
      exact ⟨⟨rfl, List.length_set.trans List.length_replicate,
          fun i hi => absurd hi (Nat.not_lt_zero i)⟩, List.length_set.trans List.length_replicate,
        fun i hi => absurd hi (Nat.not_lt_zero i), rfl⟩
    | succ n ih =>
      rw [List.range_succ, List.foldl_concat]
      exact (ih (by omega)).enter hn
  exact hloop 255 le_rfl

theorem sr_tables (gfpoly : ℕ) [Primitive (BitVec.ofNat 8 gfpoly)] : (tables 8 gfpoly).sr = 1 := by
  rw [(filled_tables gfpoly).sr]
  exact congrArg BitVec.toNat (Primitive.power_period (BitVec.ofNat 8 gfpoly))

end

/-! ## The field polynomial -/

instance primitive_0x11d : Primitive (BitVec.ofNat 8 0x11d) := by
  refine Primitive.of_power _ (by decide) (by decide +kernel) fun p hp hdvd => ?_
  have hp' : p = 3 ∨ p = 5 ∨ p = 17 := by
    rw [show 2 ^ 8 - 1 = 3 * 5 * 17 from rfl, hp.dvd_mul, hp.dvd_mul,
      Nat.prime_dvd_prime_iff_eq hp (by decide), Nat.prime_dvd_prime_iff_eq hp (by decide),
      Nat.prime_dvd_prime_iff_eq hp (by decide), or_assoc] at hdvd
    exact hdvd
  rcases hp' with rfl | rfl | rfl <;> decide +kernel

theorem sr_tables_eq_one_iff (gfpoly : ℕ) :
    (tables 8 gfpoly).sr = 1 ↔ minimalPeriod (timesX (BitVec.ofNat 8 gfpoly)) 1#8 ∣ 255 := by
  rw [← isPeriodicPt_iff_minimalPeriod_dvd, (powers_tables gfpoly).sr]
  exact ⟨fun h => BitVec.eq_of_toNat_eq h, fun h => congrArg BitVec.toNat h⟩

theorem minimalPeriod_0x11b : minimalPeriod (timesX (BitVec.ofNat 8 0x11b)) 1#8 ∣ 51 :=
  IsPeriodicPt.minimalPeriod_dvd (show power (BitVec.ofNat 8 0x11b) 51 = 1#8 by decide +kernel)

theorem primitive_of_tables {gfpoly : ℕ} (hsr : (tables 8 gfpoly).sr = 1)
    (hinverse : ∀ i < 255, (tables 8 gfpoly).indexOf.getD
      ((tables 8 gfpoly).alphaTo.getD i 0).toNat 0 = i) : Primitive (BitVec.ofNat 8 gfpoly) := by
  refine ⟨by decide, ?_⟩
  have hpowers := powers_tables gfpoly
  have hdvd := (sr_tables_eq_one_iff gfpoly).mp hsr
  refine Nat.le_antisymm (Nat.le_of_dvd (by decide) hdvd) (not_lt.mp fun hlt => ?_)
  -- A state that comes back has two logarithms.
  have hback : power (BitVec.ofNat 8 gfpoly)
      (minimalPeriod (timesX (BitVec.ofNat 8 gfpoly)) 1#8) = power (BitVec.ofNat 8 gfpoly) 0 :=
    iterate_minimalPeriod
  have hperiod := hinverse _ hlt
  have hzero := hinverse 0 (by decide)
  rw [hpowers.alphaTo _ hlt, hback, ← hpowers.alphaTo 0 (by decide), hzero] at hperiod
  have hpos := minimalPeriod_pos_of_mem_periodicPts
    (mk_mem_periodicPts (by decide) ((isPeriodicPt_iff_minimalPeriod_dvd).mpr hdvd))
  exact hpos.ne hperiod

/-- The check accepts every polynomial whose period divides 255, and there are some with a shorter
one. The tables undo each other if the register is back after 255 turns and not before. -/
theorem tables_inverse_iff :
    (∀ gfpoly, (tables 8 gfpoly).sr = 1 ↔
      minimalPeriod (timesX (BitVec.ofNat 8 gfpoly)) 1#8 ∣ 255) ∧
    (∃ gfpoly, (tables 8 gfpoly).sr = 1 ∧
      minimalPeriod (timesX (BitVec.ofNat 8 gfpoly)) 1#8 < 255) ∧
    ∀ gfpoly, ((tables 8 gfpoly).sr = 1 ∧ ∀ i < 255, (tables 8 gfpoly).indexOf.getD
        ((tables 8 gfpoly).alphaTo.getD i 0).toNat 0 = i) ↔
      Primitive (BitVec.ofNat 8 gfpoly) := by
  refine ⟨sr_tables_eq_one_iff, ⟨0x11b, ?_, ?_⟩, fun gfpoly => ⟨?_, fun _ => ?_⟩⟩
  · exact (sr_tables_eq_one_iff 0x11b).mpr (minimalPeriod_0x11b.trans (by decide))
  · exact (Nat.le_of_dvd (by decide) minimalPeriod_0x11b).trans_lt (by decide)
  · rintro ⟨hsr, hinverse⟩
    exact primitive_of_tables hsr hinverse
  · have hfilled := filled_tables gfpoly
    refine ⟨sr_tables gfpoly, fun i hi => ?_⟩
    rw [hfilled.alphaTo i hi]
    exact hfilled.indexOf i hi

/-! ## Symbols as elements of the field -/

def sym (g : BitVec 8) (x : UInt8) : GF g := ⟨x.toBitVec⟩

@[simp] theorem sym_zero (g : BitVec 8) : sym g 0 = 0 := rfl

theorem sym_one (g : BitVec 8) : sym g 1 = 1 := rfl

@[simp] theorem sym_xor (g : BitVec 8) (x y : UInt8) : sym g (x ^^^ y) = sym g x + sym g y :=
  GF.bits_injective (UInt8.toBitVec_xor ..)

theorem sym_injective (g : BitVec 8) : Function.Injective (sym g) := fun _ _ h =>
  UInt8.toBitVec_inj.mp (congrArg GF.bits h)

@[simp] theorem sym_eq_zero_iff {g : BitVec 8} {x : UInt8} : sym g x = 0 ↔ x = 0 :=
  ⟨fun h => sym_injective g (h.trans (sym_zero g).symm), fun h => h ▸ sym_zero g⟩

structure Tabulates (rs : Rs) (g : BitVec 8) : Prop where
  mm : rs.mm = 8
  nn : rs.nn = 255
  alpha : ∀ i < 255, rs.alpha i = UInt8.ofBitVec (power g i)
  index : ∀ i < 255, rs.index (UInt8.ofBitVec (power g i)) = i
  index_zero : rs.index 0 = 255

noncomputable def value (g : BitVec 8) [Primitive g] (i : ℕ) : GF g :=
  if i = 255 then 0 else GF.alpha g ^ i

namespace Tabulates

variable {rs : Rs} {g : BitVec 8}

/-- Only the tables count. -/
theorem congr (h : Tabulates rs g) {rs' : Rs} (hmm : rs'.mm = rs.mm) (hnn : rs'.nn = rs.nn)
    (halpha : rs'.alphaTo = rs.alphaTo) (hindex : rs'.indexOf = rs.indexOf) :
    Tabulates rs' g := by
  refine ⟨hmm.trans h.mm, hnn.trans h.nn, fun i hi => ?_, fun i hi => ?_, ?_⟩
  · rw [Rs.alpha, halpha]
    exact h.alpha i hi
  · rw [Rs.index, hindex]
    exact h.index i hi
  · rw [Rs.index, hindex]
    exact h.index_zero

theorem a0 (h : Tabulates rs g) : rs.a0 = 255 := h.nn

theorem modnn_eq (h : Tabulates rs g) (x : ℕ) : rs.modnn x = x % 255 := by
  rw [Rs.modnn, h.mm, h.nn]
  exact modnnLoop_eq (by decide : 0 < 8) x le_rfl

variable [Primitive g]

theorem sym_alpha (h : Tabulates rs g) {i : ℕ} (hi : i < 255) :
    sym g (rs.alpha i) = GF.alpha g ^ i := by
  rw [h.alpha i hi, GF.alpha_pow]
  rfl

theorem sym_alpha_modnn (h : Tabulates rs g) (k : ℕ) :
    sym g (rs.alpha (rs.modnn k)) = GF.alpha g ^ k := by
  rw [h.modnn_eq, h.sym_alpha (Nat.mod_lt k (by decide)), GF.alpha_pow_eq_iff]
  exact Nat.mod_modEq k 255

theorem index_of_ne_zero (h : Tabulates rs g) {x : UInt8} (hx : x ≠ 0) :
    rs.index x < 255 ∧ GF.alpha g ^ rs.index x = sym g x := by
  obtain ⟨i, hi, hpow⟩ := GF.exists_ofExp (mt sym_eq_zero_iff.mp hx : sym g x ≠ 0)
  have hbits : UInt8.ofBitVec (power g i) = x :=
    UInt8.toBitVec_inj.mp (congrArg GF.bits hpow)
  have hindex : rs.index x = i := by rw [← hbits, h.index i hi]
  rw [hindex, GF.alpha_pow, hpow]
  exact ⟨hi, rfl⟩

theorem index_eq_a0_iff (h : Tabulates rs g) {x : UInt8} : rs.index x = rs.a0 ↔ x = 0 := by
  rw [h.a0]
  constructor
  · intro hx
    by_contra hne
    have := (h.index_of_ne_zero hne).1
    omega
  · rintro rfl
    exact h.index_zero

@[simp] theorem value_index (h : Tabulates rs g) (x : UInt8) : value g (rs.index x) = sym g x := by
  by_cases hx : x = 0
  · rw [hx, h.index_zero, value, if_pos rfl, sym_zero]
  · obtain ⟨hlt, hpow⟩ := h.index_of_ne_zero hx
    rw [value, if_neg (by omega), hpow]

theorem value_of_ne (h : Tabulates rs g) {i : ℕ} (hi : i ≠ rs.a0) :
    value g i = GF.alpha g ^ i := by
  rw [h.a0] at hi
  rw [value, if_neg hi]

theorem value_a0 (h : Tabulates rs g) : value g rs.a0 = 0 := by
  rw [h.a0, value, if_pos rfl]

theorem value_modnn (h : Tabulates rs g) (k : ℕ) : value g (rs.modnn k) = GF.alpha g ^ k := by
  have hlt : rs.modnn k < 255 := by
    rw [h.modnn_eq]
    exact Nat.mod_lt k (by decide)
  rw [value, if_neg hlt.ne, ← h.sym_alpha_modnn k, h.sym_alpha hlt]

end Tabulates

end SourceCompanion.Fec
