import SourceCompanion.Fec.Tables
import SourceCompanion.Syndrome.Word

/-! # The generator polynomial

The initialisation multiplies linear factors into an array. It leaves the logarithms of the
generator polynomial of the code. Its terms are never zero, so the encoder need not look for
the logarithm of zero among them.
-/

namespace SourceCompanion.Fec

open Galois Polynomial Syndrome

/-! ## Changing an array downward -/

section

variable (f : UInt8 → UInt8 → UInt8)

theorem downward_succ (n : ℕ) (a : List UInt8) : downward f (n + 1) a =
    downward f n (a.set (n + 1) (f (a.getD (n + 1) 0) (a.getD n 0))) := by
  simp only [downward, List.range_succ, List.reverse_append, List.reverse_singleton,
    List.singleton_append, List.foldl_cons]

@[simp] theorem length_downward (n : ℕ) (a : List UInt8) :
    (downward f n a).length = a.length := by
  induction n generalizing a with
  | zero => rfl
  | succ n ih => rw [downward_succ, ih, List.length_set]

@[simp] theorem getD_zero_downward (n : ℕ) (a : List UInt8) :
    (downward f n a).getD 0 0 = a.getD 0 0 := by
  induction n generalizing a with
  | zero => rfl
  | succ n ih => rw [downward_succ, ih, getD_set, if_neg fun h => absurd h.1 (Nat.succ_ne_zero n)]

theorem getD_succ_downward (n j : ℕ) (a : List UInt8) : (downward f n a).getD (j + 1) 0 =
    if j < n ∧ j + 1 < a.length then f (a.getD (j + 1) 0) (a.getD j 0) else a.getD (j + 1) 0 := by
  induction n generalizing a with
  | zero => rfl
  | succ n ih =>
    rw [downward_succ, ih, List.length_set]
    by_cases hjn : j < n
    · simp only [getD_set, hjn, show n + 1 ≠ j + 1 by omega, show n + 1 ≠ j by omega,
        false_and, if_false, true_and, show j < n + 1 by omega]
    · rw [if_neg fun h => hjn h.1, getD_set]
      by_cases heq : n = j
      · subst heq
        simp
      · rw [if_neg fun h => heq (Nat.succ.inj h.1), if_neg fun h => by omega]

end

/-- The array holds the coefficients of a polynomial. -/
def Holds (g : BitVec 8) [Primitive g] (a : List UInt8) (p : (GF g)[X]) : Prop :=
  ∀ j, sym g (a.getD j 0) = p.coeff j

section

variable {rs : Rs} {g : BitVec 8} [Primitive g]

noncomputable def generatorOf (rs : Rs) (g : BitVec 8) [Primitive g] (n : ℕ) : (GF g)[X] :=
  generator (GF.alpha g ^ rs.prim) rs.fcr n

theorem alpha_ne_zero : GF.alpha g ≠ 0 := GF.ofExp_ne_zero 1

theorem coeff_zero_generatorOf_ne_zero (n : ℕ) : (generatorOf rs g n).coeff 0 ≠ 0 := by
  rw [coeff_zero_eq_eval_zero, generatorOf, generator, eval_prod]
  refine Finset.prod_ne_zero_iff.mpr fun i _ => ?_
  simpa using fun h => absurd h alpha_ne_zero

theorem Tabulates.multiplyRoot (h : Tabulates rs g) {genpoly : List UInt8} {n : ℕ}
    (hn : n < rs.nroots) (hlen : genpoly.length = rs.nroots + 1)
    (hholds : Holds g genpoly (generatorOf rs g n)) :
    (multiplyRoot rs genpoly n).length = rs.nroots + 1 ∧
      Holds g (multiplyRoot rs genpoly n) (generatorOf rs g (n + 1)) := by
  set root := rs.fcr * rs.prim + n * rs.prim with hroot
  have hpow : (GF.alpha g ^ rs.prim) ^ (rs.fcr + n) = GF.alpha g ^ root := by
    rw [← pow_mul, hroot, ← Nat.add_mul, Nat.mul_comm]
  -- The sum of an entry times the root and the entry below.
  have hentry (x below : UInt8) : sym g (if x ≠ 0 then
      below ^^^ rs.alpha (rs.modnn (rs.index x + root)) else below) =
      sym g below + sym g x * GF.alpha g ^ root := by
    by_cases hx : x = 0
    · rw [if_neg (not_not.mpr hx), hx, sym_zero, zero_mul, add_zero]
    · rw [if_pos hx, sym_xor, h.sym_alpha_modnn, pow_add, (h.index_of_ne_zero hx).2]
  have hcoeff (j : ℕ) : (generatorOf rs g (n + 1)).coeff (j + 1) =
      (generatorOf rs g n).coeff j + (generatorOf rs g n).coeff (j + 1) * GF.alpha g ^ root := by
    rw [generatorOf, generator_succ, hpow, mul_sub, coeff_sub, coeff_mul_X, coeff_mul_C,
      CharTwo.sub_eq_add]
    rfl
  refine ⟨by simp [Fec.multiplyRoot, hlen], fun j => ?_⟩
  cases j with
  | zero =>
    have hne : genpoly.getD 0 0 ≠ 0 := by
      rw [ne_eq, ← sym_eq_zero_iff (g := g), hholds]
      exact coeff_zero_generatorOf_ne_zero n
    have hfirst : (genpoly.set (n + 1) 1).getD 0 0 = genpoly.getD 0 0 := by
      rw [getD_set, if_neg fun h => absurd h.1 (Nat.succ_ne_zero n)]
    rw [Fec.multiplyRoot, getD_set, if_pos ⟨rfl, by simp [hlen]⟩, getD_zero_downward, hfirst,
      ← hroot, h.sym_alpha_modnn, pow_add, (h.index_of_ne_zero hne).2, hholds, generatorOf,
      generatorOf, generator_succ, hpow, mul_sub, coeff_sub, mul_coeff_zero, coeff_X_zero, mul_zero,
      coeff_mul_C, zero_sub, CharTwo.neg_eq]
  | succ j =>
    rw [Fec.multiplyRoot, getD_set, if_neg fun h => absurd h.1 (Nat.succ_ne_zero j).symm,
      getD_succ_downward, List.length_set, hlen, hcoeff]
    split
    · -- The entries below the new leading one.
      rw [← hroot, hentry, getD_set, getD_set, if_neg (by omega), if_neg (by omega), hholds,
        hholds]
    · rw [getD_set, hlen]
      split
      · obtain rfl : n = j := by omega
        have hlead := generator_monic (a := GF.alpha g ^ rs.prim) (b := rs.fcr) (n := n)
        rw [Monic, leadingCoeff, natDegree_generator] at hlead
        rw [sym_one, generatorOf, hlead, coeff_eq_zero_of_natDegree_lt
          (natDegree_generator.trans_lt (Nat.lt_succ_self n)), zero_mul, add_zero]
      · have hlarge : n < j := by omega
        rw [hholds, generatorOf, coeff_eq_zero_of_natDegree_lt (natDegree_generator.trans_lt
          hlarge), coeff_eq_zero_of_natDegree_lt (natDegree_generator.trans_lt
          (hlarge.trans (Nat.lt_succ_self j))), zero_mul, add_zero]

theorem holds_one (n : ℕ) : Holds g ((List.replicate (n + 1) 0).set 0 1) (1 : (GF g)[X]) := by
  intro j
  rw [getD_set, getD_replicate, coeff_one]
  by_cases hj : j = 0
  · rw [if_pos ⟨hj.symm, by simp [hj]⟩, if_pos hj, sym_one]
  · rw [if_neg fun h => hj h.1.symm, if_neg hj, sym_zero]

theorem Tabulates.polyForm (h : Tabulates rs g) :
    (polyForm rs).length = rs.nroots + 1 ∧ Holds g (polyForm rs) (generatorOf rs g rs.nroots) := by
  have hloop (n : ℕ) (hn : n ≤ rs.nroots) :
      let a := (List.range n).foldl (Fec.multiplyRoot rs)
        ((List.replicate (rs.nroots + 1) 0).set 0 1)
      a.length = rs.nroots + 1 ∧ Holds g a (generatorOf rs g n) := by
    induction n with
    | zero =>
      exact ⟨by simp, holds_one rs.nroots⟩
    | succ n ih =>
      intro a
      obtain ⟨hlen, hholds⟩ := ih (by omega)
      simp only [a, List.range_succ, List.foldl_concat]
      exact h.multiplyRoot hn hlen hholds
  exact hloop rs.nroots le_rfl

end

/-! ## The initialised codec -/

structure Codec (rs : Rs) (g : BitVec 8) [Primitive g] : Prop extends Tabulates rs g where
  coprime : rs.prim.Coprime 255
  iprim_pos : 1 ≤ rs.iprim
  iprim_le : rs.iprim ≤ 255
  iprim : rs.iprim * rs.prim ≡ 1 [MOD 255]
  room : rs.nroots + rs.pad < 255
  genpoly : ∀ j ≤ rs.nroots,
    GF.alpha g ^ rs.genpoly.getD j 0 = (generatorOf rs g rs.nroots).coeff j

theorem injOn_pow_alpha {g : BitVec 8} [Primitive g] {k : ℕ} (hk : k.Coprime 255) :
    Set.InjOn ((GF.alpha g ^ k) ^ ·) (Finset.range 255) := by
  intro i hi j hj h
  simp only [← pow_mul, GF.alpha_pow_eq_iff] at h
  have hmod : i ≡ j [MOD 255] := Nat.ModEq.cancel_left_of_coprime hk.symm h
  simp only [Finset.coe_range, Set.mem_Iio] at hi hj
  rwa [Nat.ModEq, Nat.mod_eq_of_lt hi, Nat.mod_eq_of_lt hj] at hmod

/-- The loop finds the first multiple of `prim`. -/
theorem findIprim_eq_some {prim nn turns start k : ℕ}
    (h : findIprim prim nn turns start = some k) :
    k % prim = 0 ∧ ∃ m, k = start + m * nn ∧ ∀ j < m, (start + j * nn) % prim ≠ 0 := by
  induction turns generalizing start with
  | zero => cases h
  | succ turns ih =>
    rw [findIprim] at h
    split at h
    · split at h
      · obtain ⟨hk, m, rfl, hfirst⟩ := ih h
        refine ⟨hk, m + 1, by ring, fun j hj => ?_⟩
        cases j with
        | zero => simpa using ‹start % prim ≠ 0›
        | succ j =>
          have hnext := hfirst j (by omega)
          rwa [show start + nn + j * nn = start + (j + 1) * nn by ring] at hnext
      · cases h
    · obtain rfl := Option.some.inj h
      exact ⟨not_not.mp ‹_›, 0, by simp, fun j hj => absurd hj (Nat.not_lt_zero j)⟩

theorem findIprim_isSome {prim nn turns start m : ℕ} (hm : m < turns)
    (hmax : start + m * nn ≤ intMax) (h : (start + m * nn) % prim = 0) :
    (findIprim prim nn turns start).isSome := by
  induction turns generalizing start m with
  | zero => omega
  | succ turns ih =>
    rw [findIprim]
    split
    · cases m with
      | zero => simp_all
      | succ m =>
        have hstart : start + (m + 1) * nn = start + nn + m * nn := by ring
        rw [hstart] at hmax h
        rw [if_pos (by omega)]
        exact ih (by omega) hmax h
    · rfl

theorem exists_multiple {prim : ℕ} (hpos : 0 < prim) (hcoprime : prim.Coprime 255) :
    ∃ m < prim, (1 + m * 255) % prim = 0 := by
  obtain ⟨hmul, hone⟩ := (Nat.chineseRemainder hcoprime 0 1).2
  have hlt := Nat.chineseRemainder_lt_mul hcoprime 0 1 (by omega) (by decide)
  generalize (Nat.chineseRemainder hcoprime 0 1).1 = k at hmul hone hlt
  have hone' : k % 255 = 1 := hone
  have hk : k = 1 + k / 255 * 255 := by omega
  exact ⟨k / 255, Nat.div_lt_of_lt_mul (by rwa [Nat.mul_comm]), hk ▸ hmul⟩

theorem coprime_of_findIprim {prim turns k : ℕ} (h : findIprim prim 255 turns 1 = some k) :
    prim.Coprime 255 := by
  obtain ⟨hmod, m, rfl, -⟩ := findIprim_eq_some h
  obtain ⟨q, hq⟩ := Nat.dvd_of_mod_eq_zero hmod
  have hone : q * prim ≡ 1 [MOD 255] := by
    rw [Nat.mul_comm, ← hq, Nat.ModEq, Nat.add_mul_mod_self_right]
  refine Nat.Coprime.coprime_mul_left (k := q) ?_
  rw [Nat.coprime_iff_gcd_eq_one, hone.gcd_eq]
  rfl

/-- The parameters for which the initialisation yields a control block. -/
structure Admissible (fcr prim nroots pad : ℤ) : Prop where
  fcr_nonneg : 0 ≤ fcr
  fcr_lt : fcr < 256
  prim_pos : 0 < prim
  prim_lt : prim < 256
  nroots_nonneg : 0 ≤ nroots
  pad_nonneg : 0 ≤ pad
  room : nroots + pad < 255
  coprime : prim.toNat.Coprime 255

section

variable {gfpoly : ℕ} [Primitive (BitVec.ofNat 8 gfpoly)]

theorem alphaTo_tableBlock (symsize gfpoly fcr prim nroots pad iprim : ℕ) :
    (tableBlock symsize gfpoly fcr prim nroots pad iprim).alphaTo =
      (tables symsize gfpoly).alphaTo := rfl

theorem indexOf_tableBlock (symsize gfpoly fcr prim nroots pad iprim : ℕ) :
    (tableBlock symsize gfpoly fcr prim nroots pad iprim).indexOf =
      (tables symsize gfpoly).indexOf := rfl

theorem tabulates_tableBlock (fcr prim nroots pad iprim : ℕ) :
    Tabulates (tableBlock 8 gfpoly fcr prim nroots pad iprim) (BitVec.ofNat 8 gfpoly) := by
  have h := filled_tables gfpoly
  refine ⟨rfl, rfl, fun i hi => ?_, fun i hi => ?_, ?_⟩
  · rw [Rs.alpha, alphaTo_tableBlock]
    exact h.alphaTo i hi
  · rw [Rs.index, indexOf_tableBlock]
    exact h.indexOf i hi
  · rw [Rs.index, indexOf_tableBlock]
    exact h.indexOf_zero

end

theorem Tabulates.withGenpoly {rs : Rs} {g : BitVec 8} (h : Tabulates rs g) :
    Tabulates (withGenpoly rs) g := h.congr rfl rfl rfl rfl

theorem Tabulates.genpoly_withGenpoly {rs : Rs} {g : BitVec 8} [Primitive g]
    (h : Tabulates rs g) (hprim : rs.prim.Coprime 255) (hroom : rs.nroots < 255) {j : ℕ}
    (hj : j ≤ rs.nroots) :
    GF.alpha g ^ (Fec.withGenpoly rs).genpoly.getD j 0 = (generatorOf rs g rs.nroots).coeff j := by
  obtain ⟨hlen, hholds⟩ := h.polyForm
  have hne : (Fec.polyForm rs).getD j 0 ≠ 0 := by
    rw [ne_eq, ← sym_eq_zero_iff (g := g), hholds]
    refine coeff_generator_ne_zero (pow_ne_zero _ alpha_ne_zero)
      ((injOn_pow_alpha hprim).mono ?_) hj
    exact Finset.coe_subset.mpr (Finset.range_mono (by omega))
  have hget : (Fec.withGenpoly rs).genpoly.getD j 0 = rs.index ((Fec.polyForm rs).getD j 0) := by
    have hlt : j < (Fec.polyForm rs).length := by
      rw [hlen]
      exact Nat.lt_succ_of_le hj
    rw [Fec.withGenpoly, List.getD_eq_getElem _ _ (by rwa [List.length_map]), List.getElem_map,
      List.getD_eq_getElem _ _ hlt]
  rw [hget, (h.index_of_ne_zero hne).2, hholds]

theorem Tabulates.codec {rs : Rs} {g : BitVec 8} [Primitive g] (h : Tabulates rs g)
    (hcoprime : rs.prim.Coprime 255) (hpos : 1 ≤ rs.iprim) (hle : rs.iprim ≤ 255)
    (hone : rs.iprim * rs.prim ≡ 1 [MOD 255]) (hroom : rs.nroots + rs.pad < 255) :
    Codec (Fec.withGenpoly rs) g where
  toTabulates := h.withGenpoly
  coprime := hcoprime
  iprim_pos := hpos
  iprim_le := hle
  iprim := hone
  room := hroom
  genpoly := fun _ hj => h.genpoly_withGenpoly hcoprime (by omega) hj

section

variable {gfpoly : ℕ} [Primitive (BitVec.ofNat 8 gfpoly)]

theorem codec_tableBlock (gfpoly : ℕ) [Primitive (BitVec.ofNat 8 gfpoly)]
    (fcr : ℕ) {prim nroots pad turns iprim : ℕ} (hroom : nroots + pad < 255)
    (hprim : 0 < prim) (hcoprime : prim.Coprime 255)
    (h : findIprim prim 255 turns 1 = some iprim) :
    Codec (withGenpoly (tableBlock 8 gfpoly fcr prim nroots pad iprim))
      (BitVec.ofNat 8 gfpoly) := by
  obtain ⟨hmod, m, rfl, hfirst⟩ := findIprim_eq_some h
  obtain ⟨m', hm', hmultiple⟩ := exists_multiple hprim hcoprime
  have hm : m ≤ m' := not_lt.mp fun hlt => hfirst m' hlt hmultiple
  obtain ⟨q, hq⟩ := Nat.dvd_of_mod_eq_zero hmod
  have hdiv : (1 + m * 255) / prim = q := by rw [hq, Nat.mul_div_cancel_left _ hprim]
  have hone : q * prim ≡ 1 [MOD 255] := by
    rw [Nat.mul_comm, ← hq, Nat.ModEq, Nat.add_mul_mod_self_right]
  have hpos : 1 ≤ q := by
    rcases Nat.eq_zero_or_pos q with rfl | hpos
    · omega
    · exact hpos
  have hle : q ≤ 255 := by
    by_contra hlt
    have h1 : prim * 256 ≤ prim * q := Nat.mul_le_mul_left _ (by omega)
    omega
  exact (tabulates_tableBlock fcr prim nroots pad (1 + m * 255)).codec hcoprime
    (hpos.trans_eq hdiv.symm) (hdiv.trans_le hle) ((congrArg (· * prim) hdiv).symm ▸ hone) hroom

end

section

variable {gfpoly : ℕ} {fcr prim nroots pad : ℤ} {rs : Rs}

theorem of_initRsChar (h : initRsChar 8 gfpoly fcr prim nroots pad = .ok rs) :
    (0 ≤ fcr ∧ fcr < 256 ∧ 0 < prim ∧ prim < 256 ∧ 0 ≤ nroots ∧ 0 ≤ pad ∧
      nroots + pad < 255) ∧ ∃ turns iprim, findIprim prim.toNat 255 turns 1 = some iprim ∧
        rs = withGenpoly (tableBlock 8 gfpoly fcr.toNat prim.toNat nroots.toNat pad.toNat
          iprim) := by
  have hshift : ((1 <<< (8 : ℤ).toNat : ℕ) : ℤ) = 256 := rfl
  simp only [initRsChar, hshift] at h
  split_ifs at h
  split at h
  · cases h
  · obtain rfl := Except.ok.inj h
    exact ⟨⟨by omega, by omega, by omega, by omega, by omega, by omega, by omega⟩, _, _, ‹_›, rfl⟩

theorem coprime_of_initRsChar (h : initRsChar 8 gfpoly fcr prim nroots pad = .ok rs) :
    prim.toNat.Coprime 255 := by
  obtain ⟨-, _, _, hfind, -⟩ := of_initRsChar h
  exact coprime_of_findIprim hfind

variable [Primitive (BitVec.ofNat 8 gfpoly)]

theorem codec_of_initRsChar (h : initRsChar 8 gfpoly fcr prim nroots pad = .ok rs)
    (hcoprime : prim.toNat.Coprime 255) :
    Admissible fcr prim nroots pad ∧ Codec rs (BitVec.ofNat 8 gfpoly) ∧
      rs.nroots = nroots.toNat ∧ rs.pad = pad.toNat := by
  obtain ⟨⟨_, _, _, _, _, _, _⟩, _, _, hfind, rfl⟩ := of_initRsChar h
  exact ⟨⟨by omega, by omega, by omega, by omega, by omega, by omega, by omega, hcoprime⟩,
    codec_tableBlock gfpoly fcr.toNat (by omega) (by omega) hcoprime hfind, rfl, rfl⟩

/-- Admissible parameters yield a control block. -/
theorem exists_initRsChar (h : Admissible fcr prim nroots pad) :
    ∃ rs, initRsChar 8 gfpoly fcr prim nroots pad = .ok rs := by
  have hshift : ((1 <<< (8 : ℤ).toNat : ℕ) : ℤ) = 256 := rfl
  obtain ⟨hfcr, hfcr', hprim, hprim', hnroots, hpad, hroom, hcoprime⟩ := h
  have hsome : (findIprim prim.toNat 255 (intMax / 255 + 1) 1).isSome := by
    obtain ⟨m, hm, hmultiple⟩ := exists_multiple (by omega : 0 < prim.toNat) hcoprime
    have hmax : intMax = 2147483647 := rfl
    exact findIprim_isSome (by omega) (by omega) hmultiple
  obtain ⟨iprim, hiprim⟩ := Option.isSome_iff_exists.mp hsome
  have hfind : findIprim prim.toNat ((1 <<< (8 : ℤ).toNat) - 1)
      (intMax / ((1 <<< (8 : ℤ).toNat) - 1) + 1) 1 = some iprim := hiprim
  have hsr : (tables (8 : ℤ).toNat gfpoly).sr = 1 := sr_tables gfpoly
  refine ⟨withGenpoly (tableBlock (8 : ℤ).toNat gfpoly fcr.toNat prim.toNat nroots.toNat
    pad.toNat iprim), ?_⟩
  rw [initRsChar, if_neg (by decide), hshift, if_neg (by omega), if_neg (by omega),
    if_neg (by omega), if_neg (by omega), if_neg (not_not.mpr hsr)]
  simp only [hfind]

omit [Primitive (BitVec.ofNat 8 gfpoly)] in
theorem initRsChar_eq_parameters_iff :
    initRsChar 8 gfpoly fcr prim nroots pad = .error .parameters ↔
      ¬(0 ≤ fcr ∧ fcr < 256 ∧ 0 < prim ∧ prim < 256 ∧ 0 ≤ nroots ∧ 0 ≤ pad ∧
        nroots + pad < 255) := by
  have hshift : ((1 <<< (8 : ℤ).toNat : ℕ) : ℤ) = 256 := rfl
  simp only [initRsChar, hshift]
  split_ifs
  all_goals try (simp only [true_iff]; omega)
  · simp only [reduceCtorEq, Except.error.injEq, false_iff]
    omega
  · split <;> (simp only [reduceCtorEq, Except.error.injEq, false_iff]; omega)

theorem initRsChar_ne_notPrimitive :
    initRsChar 8 gfpoly fcr prim nroots pad ≠ .error .notPrimitive := by
  have hsr : (tables (8 : ℤ).toNat gfpoly).sr = 1 := sr_tables gfpoly
  rw [initRsChar, if_neg (not_not.mpr hsr)]
  split_ifs
  all_goals try simp
  split <;> simp

end

end SourceCompanion.Fec
