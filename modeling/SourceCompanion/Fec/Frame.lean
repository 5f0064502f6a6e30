import SourceCompanion.Fec.Located

/-! # What the decoder leaves alone

Whatever word arrives, and whether it can be corrected or not, the decoder changes no symbol
but those at the positions that it reports, and it reports each position once.
-/

namespace SourceCompanion.Fec

open Galois

section

variable (rs : Rs)

theorem degLambda_le (lambda : List ℕ) : degLambda rs lambda ≤ rs.nroots := by
  have hloop (n : ℕ) : (List.range (n + 1)).foldl
      (fun deg i => if lambda.getD i rs.a0 ≠ rs.a0 then i else deg) 0 ≤ n := by
    induction n with
    | zero => simp
    | succ n ih =>
      rw [List.range_succ, List.foldl_concat]
      split <;> omega
  exact hloop rs.nroots

theorem applyError_frame (lambda omega : List ℕ) (deg : ℕ) (data : List UInt8)
    (found : ℕ × ℕ) :
    (applyError rs lambda omega deg data found).length = data.length ∧ ∀ j,
      (applyError rs lambda omega deg data found).getD j 0 ≠ data.getD j 0 →
        found.2 = rs.pad + j := by
  simp only [applyError]
  split
  · refine ⟨List.length_set, fun j hj => ?_⟩
    rw [getD_set] at hj
    split at hj
    · omega
    · exact absurd rfl hj
  · exact ⟨rfl, fun j hj => absurd rfl hj⟩

theorem applyErrors_frame (lambda omega : List ℕ) (deg : ℕ) (found : List (ℕ × ℕ))
    (data : List UInt8) :
    (found.foldl (applyError rs lambda omega deg) data).length = data.length ∧ ∀ j,
      (found.foldl (applyError rs lambda omega deg) data).getD j 0 ≠ data.getD j 0 →
        rs.pad + j ∈ found.map (·.2) := by
  induction found generalizing data with
  | nil => exact ⟨rfl, fun j hj => absurd rfl hj⟩
  | cons first found ih =>
    obtain ⟨hlength, hchanged⟩ := applyError_frame rs lambda omega deg data first
    obtain ⟨hlength', hchanged'⟩ := ih (applyError rs lambda omega deg data first)
    refine ⟨hlength'.trans hlength, fun j hj => List.mem_cons.mpr ?_⟩
    by_cases hlater : (found.foldl (applyError rs lambda omega deg)
        (applyError rs lambda omega deg data first)).getD j 0 =
        (applyError rs lambda omega deg data first).getD j 0
    · exact Or.inl (hchanged j (hlater ▸ hj)).symm
    · exact Or.inr (hchanged' j hlater)

end

section

variable {rs : Rs} {g : BitVec 8} [Primitive g]

theorem Codec.chienSearch_sublist (h : Codec rs g) (deg turns i : ℕ) (reg : List ℕ)
    (count : ℕ) :
    (Fec.chienSearch rs deg turns (i + 1) (locOf rs (i + 1)) reg count).Sublist
      ((List.range' (i + 1) turns).map fun j => (j, locOf rs j)) := by
  induction turns generalizing i reg count with
  | zero => exact List.Sublist.refl _
  | succ turns ih =>
    rw [Fec.chienSearch, List.range'_succ, List.map_cons]
    simp only [h.modnn_locOf]
    split
    · exact (ih ..).cons _
    · split
      · exact (List.nil_sublist _).cons_cons _
      · exact (ih ..).cons_cons _

theorem Codec.locOf_injOn (h : Codec rs g) {i j : ℕ} (hi : i ∈ List.range' 1 255)
    (hj : j ∈ List.range' 1 255) (heq : locOf rs i = locOf rs j) : i = j := by
  have hplace := congrArg (place rs g) heq
  rw [h.place_locOf, h.place_locOf, inv_inj, GF.alpha_pow_eq_iff] at hplace
  have hmod : i % 255 = j % 255 := hplace
  rw [List.mem_range'_1] at hi hj
  omega

/-- The return value is the number of positions reported, or a failure that leaves the data
alone. The positions are distinct, and no other symbols are changed. -/
theorem Codec.decodeRsChar_frame (h : Codec rs g) (data : List UInt8) (erasPos : List ℕ) :
    let decoded := Fec.decodeRsChar rs data erasPos
    (decoded.count = decoded.loc.length ∨ decoded.count = -1 ∧ decoded.loc = []) ∧
      decoded.loc.length ≤ rs.nroots ∧ decoded.loc.Nodup ∧ (∀ p ∈ decoded.loc, p < 255) ∧
      decoded.data.length = data.length ∧
      ∀ j, decoded.data.getD j 0 ≠ data.getD j 0 → rs.pad + j ∈ decoded.loc := by
  simp only [Fec.decodeRsChar]
  split
  · exact ⟨Or.inl rfl, Nat.zero_le _, List.nodup_nil, (fun p hp => by cases hp), rfl,
      fun j hj => absurd rfl hj⟩
  generalize (Fec.berlekampMassey rs ((Fec.syndromes rs data).map rs.index)
    erasPos).lambda.map rs.index = lambda
  have hsublist := h.chienSearch_sublist (degLambda rs lambda) rs.nn 0 lambda 0
  rw [Nat.zero_add, ← h.locOf_one, h.nn] at hsublist
  rw [h.nn]
  generalize Fec.chienSearch rs (degLambda rs lambda) 255 1 (rs.iprim - 1) lambda 0 = found
    at hsublist ⊢
  split
  · exact ⟨Or.inr ⟨rfl, rfl⟩, Nat.zero_le _, List.nodup_nil, (fun p hp => by cases hp), rfl,
      fun j hj => absurd rfl hj⟩
  · rename_i hdeg
    have hloc : (found.map (·.2)).Sublist ((List.range' 1 255).map (locOf rs)) := by
      have := hsublist.map (·.2)
      rwa [List.map_map] at this
    obtain ⟨hlength, hchanged⟩ := applyErrors_frame rs lambda
      (Fec.errorEvaluator rs ((Fec.syndromes rs data).map rs.index) lambda (degLambda rs lambda))
      (degLambda rs lambda) found.reverse data
    rw [not_not] at hdeg
    refine ⟨Or.inl (by simp), ?_, ?_, fun p hp => ?_, hlength, fun j hj => ?_⟩
    · rw [List.length_map, ← hdeg]
      exact degLambda_le rs lambda
    · exact hloc.nodup (List.Nodup.map_on
        (fun i hi j hj => h.locOf_injOn hi hj) List.nodup_range')
    · obtain ⟨i, -, rfl⟩ := List.mem_map.mp (hloc.subset hp)
      exact locOf_lt rs i
    · have := hchanged j hj
      rwa [List.map_reverse, List.mem_reverse] at this

theorem Codec.data_decodeRsChar (h : Codec rs g) (data : List UInt8) (erasPos : List ℕ)
    (hcount : (Fec.decodeRsChar rs data erasPos).count = 0 ∨
      (Fec.decodeRsChar rs data erasPos).count = -1) :
    (Fec.decodeRsChar rs data erasPos).data = data := by
  obtain ⟨hloc, -, -, -, hlength, hchanged⟩ := h.decodeRsChar_frame data erasPos
  have hnone : (Fec.decodeRsChar rs data erasPos).loc = [] := by
    rcases hloc with hloc | ⟨-, hloc⟩
    · exact List.eq_nil_of_length_eq_zero (by omega)
    · exact hloc
  rw [hnone] at hchanged
  refine List.ext_getElem hlength fun j hj hj' => ?_
  rw [← List.getD_eq_getElem _ 0 hj, ← List.getD_eq_getElem _ 0 hj']
  by_contra hne
  exact absurd (hchanged j hne) List.not_mem_nil

end

/-- Whatever is received, the decoder reports a number of positions and changes symbols at no
others, or fails and leaves the data alone. The word has the length of a block, and the decoder has
room for the erasures. -/
theorem frame_of_initRsChar {gfpoly : ℕ} [Primitive (BitVec.ofNat 8 gfpoly)]
    {fcr prim nroots pad : ℤ} {rs : Rs} (h : initRsChar 8 gfpoly fcr prim nroots pad = .ok rs)
    (hcoprime : prim.toNat.Coprime 255) {data : List UInt8} {erasPos : List ℕ}
    (hin : InBounds rs data erasPos) :
    let decoded := decodeRsChar rs data erasPos
    (decoded.count = decoded.loc.length ∨
      decoded.count = -1 ∧ decoded.loc = [] ∧ decoded.data = data) ∧
      (decoded.loc.length : ℤ) ≤ nroots ∧ decoded.loc.Nodup ∧ (∀ p ∈ decoded.loc, p < 255) ∧
      (decoded.data.length : ℤ) = 255 - pad ∧
      ∀ j, decoded.data.getD j 0 ≠ data.getD j 0 → pad + j ∈ decoded.loc.map Nat.cast := by
  obtain ⟨⟨_, _, _, _, _, _, _, _⟩, hcodec, hnroots, hpad⟩ := codec_of_initRsChar h hcoprime
  obtain ⟨hcount, hlength, hnodup, hlt, hdata, hchanged⟩ :=
    hcodec.decodeRsChar_frame data erasPos
  have hblock := hin.length
  rw [hcodec.nn] at hblock
  refine ⟨hcount.imp_right fun ⟨hfailed, hloc⟩ =>
    ⟨hfailed, hloc, hcodec.data_decodeRsChar data erasPos (Or.inr hfailed)⟩, by omega, hnodup, hlt,
    by omega, fun j hj => ?_⟩
  exact List.mem_map.mpr ⟨rs.pad + j, hchanged j hj, by omega⟩

theorem frame_of_initRsChar_garbage :
    let decoded := decodeRsChar (withGenpoly (tableBlock 8 0x11d 1 1 4 245 1))
      [1, 2, 3, 4, 5, 6, 7, 8, 9, 10] [247]
    (decoded.count = decoded.loc.length ∨ decoded.count = -1 ∧ decoded.loc = [] ∧
      decoded.data = [1, 2, 3, 4, 5, 6, 7, 8, 9, 10]) ∧
      (decoded.loc.length : ℤ) ≤ 4 ∧ decoded.loc.Nodup ∧ (∀ p ∈ decoded.loc, p < 255) ∧
      (decoded.data.length : ℤ) = 255 - 245 ∧ ∀ j, decoded.data.getD j 0 ≠
        [1, 2, 3, 4, 5, 6, 7, 8, 9, 10].getD j 0 → 245 + (j : ℤ) ∈ decoded.loc.map Nat.cast :=
  frame_of_initRsChar
    (show initRsChar 8 0x11d 1 1 4 245 = .ok (withGenpoly (tableBlock 8 0x11d 1 1 4 245 1)) by
      decide +kernel)
    (by decide) ⟨by decide, by decide, by decide, by decide⟩

end SourceCompanion.Fec
