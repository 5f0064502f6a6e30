import SourceCompanion.Fec.Corrected

/-! # The Reed-Solomon codec

The codec cuts a block of `n` bytes into `k` bytes of data and their parity. It encodes, or in
reverse corrects a received block in place.
-/

namespace SourceCompanion.Fec

open Galois

structure ReedSolomon where
  n : ℕ
  k : ℕ
  rsData : Rs
  reverse : Bool
  deriving DecidableEq, Repr

/-- The ways the constructor ends without a codec: an exception, or a number that does not fit an
`int`. -/
inductive Failure where
  | invalidArgument (what : String)
  | overflow
  deriving DecidableEq, Repr

def symsize : ℕ := 8

/-- A value of the type `int`. -/
def IsInt (x : ℤ) : Prop := -intMax - 1 ≤ x ∧ x ≤ intMax

instance (x : ℤ) : Decidable (IsInt x) := inferInstanceAs (Decidable (_ ∧ _))

/-- What a call to encode leaves in the buffers, and its return value. -/
structure Encoded where
  ret : ℤ
  data : List UInt8
  fec : List UInt8
  deriving DecidableEq, Repr

namespace ReedSolomon

def create (n k : ℤ) (reverse : Bool) (gfpoly : ℕ) (firstRoot primElem : ℤ) :
    Except Failure ReedSolomon :=
  let nroots := n - k
  let pad := (1 <<< symsize) - 1 - n
  -- A difference that does not fit its `int` is undefined.
  if ¬IsInt nroots ∨ ¬IsInt pad then .error .overflow
  else
    match initRsChar symsize gfpoly firstRoot primElem nroots pad with
    | .ok rsData => .ok { n := n.toNat, k := k.toNat, rsData, reverse }
    | .error .overflow => .error .overflow
    | .error _ => .error <| .invalidArgument <|
        "Invalid Reed-Solomon parameters! N=" ++ toString n ++ " ; K=" ++ toString k ++
          " ; pad=" ++ toString pad

def setReverse (rs : ReedSolomon) (state : Bool) : ReedSolomon := { rs with reverse := state }

/-- Encode the data, or in reverse correct them together with their parity. -/
def encode (rs : ReedSolomon) (data fec : List UInt8) : Encoded :=
  if rs.reverse then
    let buffer := data.take rs.k ++ fec.take (rs.n - rs.k)
    let decoded := decodeRsChar rs.rsData buffer []
    if decoded.count ≠ 0 ∧ decoded.count ≠ -1 then {
        ret := decoded.count
        data := decoded.data.take rs.k ++ data.drop rs.k
        fec := decoded.data.drop rs.k ++ fec.drop (rs.n - rs.k) }
    else { ret := decoded.count, data, fec }
  else { ret := 0, data, fec := encodeRsChar rs.rsData data ++ fec.drop (rs.n - rs.k) }

/-- Encode in one buffer, with the parity behind the data. -/
def encodeInPlace (rs : ReedSolomon) (data : List UInt8) : ℤ × List UInt8 :=
  if rs.reverse then
    let decoded := decodeRsChar rs.rsData data []
    (decoded.count, decoded.data)
  else (0, data.take rs.k ++ encodeRsChar rs.rsData data ++ data.drop rs.n)

end ReedSolomon

/-! ## The constructor -/

section

variable {gfpoly : ℕ} {n k firstRoot primElem : ℤ} {reverse : Bool} {rs : ReedSolomon}

/-- The parameters in the ranges that the initialisation checks. -/
structure InRange (n k firstRoot primElem : ℤ) : Prop where
  k_pos : 1 ≤ k
  k_le : k ≤ n
  n_le : n ≤ 255
  firstRoot_nonneg : 0 ≤ firstRoot
  firstRoot_lt : firstRoot < 256
  primElem_pos : 0 < primElem
  primElem_lt : primElem < 256

theorem admissible_iff : Admissible firstRoot primElem (n - k) (255 - n) ↔
    InRange n k firstRoot primElem ∧ primElem.toNat.Coprime 255 := by
  constructor
  · rintro ⟨_, _, _, _, _, _, _, hcoprime⟩
    exact ⟨⟨by omega, by omega, by omega, by omega, by omega, by omega, by omega⟩, hcoprime⟩
  · rintro ⟨⟨_, _, _, _, _, _, _⟩, hcoprime⟩
    exact ⟨by omega, by omega, by omega, by omega, by omega, by omega, by omega, hcoprime⟩

theorem create_of_isInt (h : IsInt (n - k) ∧ IsInt (255 - n)) :
    ReedSolomon.create n k reverse gfpoly firstRoot primElem =
      match initRsChar 8 gfpoly firstRoot primElem (n - k) (255 - n) with
      | .ok rsData => .ok { n := n.toNat, k := k.toNat, rsData, reverse }
      | .error .overflow => .error .overflow
      | .error _ => .error <| .invalidArgument <|
          "Invalid Reed-Solomon parameters! N=" ++ toString n ++ " ; K=" ++ toString k ++
            " ; pad=" ++ toString (255 - n) :=
  if_neg (not_or.mpr ⟨not_not.mpr h.1, not_not.mpr h.2⟩)

theorem create_of_not_isInt (h : ¬(IsInt (n - k) ∧ IsInt (255 - n))) :
    ReedSolomon.create n k reverse gfpoly firstRoot primElem = .error .overflow :=
  if_pos (not_and_or.mp h)

theorem InRange.isInt (h : InRange n k firstRoot primElem) : IsInt (n - k) ∧ IsInt (255 - n) := by
  obtain ⟨_, _, _, _, _, _, _⟩ := h
  simp only [IsInt, intMax]
  omega

theorem initRsChar_of_create
    (h : ReedSolomon.create n k reverse gfpoly firstRoot primElem = .ok rs) :
    initRsChar 8 gfpoly firstRoot primElem (n - k) (255 - n) = .ok rs.rsData ∧
      rs.n = n.toNat ∧ rs.k = k.toNat ∧ rs.reverse = reverse := by
  by_cases hint : IsInt (n - k) ∧ IsInt (255 - n)
  · rw [create_of_isInt hint] at h
    split at h
    · rename_i hinit
      obtain rfl := Except.ok.inj h
      exact ⟨hinit, rfl, rfl, rfl⟩
    · cases h
    · cases h
  · rw [create_of_not_isInt hint] at h
    cases h

theorem exists_create (gfpoly : ℕ) [Primitive (BitVec.ofNat 8 gfpoly)] (reverse : Bool)
    (hin : InRange n k firstRoot primElem) (hcoprime : primElem.toNat.Coprime 255) :
    ∃ rs, ReedSolomon.create n k reverse gfpoly firstRoot primElem = .ok rs := by
  have hok : ∃ rs, initRsChar 8 gfpoly firstRoot primElem (n - k) (255 - n) = .ok rs :=
    exists_initRsChar (admissible_iff.mpr ⟨hin, hcoprime⟩)
  obtain ⟨rsData, hok⟩ := hok
  rw [create_of_isInt hin.isInt, hok]
  exact ⟨_, rfl⟩

end

/-- For a primitive polynomial, the constructor accepts the parameters in range with a primitive
element that shares no factor with 255. With another primitive element, or if one of the two
differences does, a number outgrows its `int`. With other parameters out of range it throws. -/
theorem create_cases (gfpoly : ℕ) [Primitive (BitVec.ofNat 8 gfpoly)]
    (n k firstRoot primElem : ℤ) (reverse : Bool) :
    ((∃ rs, ReedSolomon.create n k reverse gfpoly firstRoot primElem = .ok rs) ↔
      InRange n k firstRoot primElem ∧ primElem.toNat.Coprime 255) ∧
    (ReedSolomon.create n k reverse gfpoly firstRoot primElem = .error .overflow ↔
      ¬(IsInt (n - k) ∧ IsInt (255 - n)) ∨
        InRange n k firstRoot primElem ∧ ¬primElem.toNat.Coprime 255) ∧
    (ReedSolomon.create n k reverse gfpoly firstRoot primElem = .error (.invalidArgument
        ("Invalid Reed-Solomon parameters! N=" ++ toString n ++ " ; K=" ++ toString k ++
          " ; pad=" ++ toString (255 - n))) ↔
      (IsInt (n - k) ∧ IsInt (255 - n)) ∧ ¬InRange n k firstRoot primElem) := by
  by_cases hint : IsInt (n - k) ∧ IsInt (255 - n)
  · have hrange : initRsChar 8 gfpoly firstRoot primElem (n - k) (255 - n) = .error .parameters ↔
        ¬InRange n k firstRoot primElem := by
      rw [initRsChar_eq_parameters_iff, not_iff_not]
      exact ⟨fun ⟨_, _, _, _, _, _, _⟩ => ⟨by omega, by omega, by omega, by omega, by omega,
        by omega, by omega⟩, fun ⟨_, _, _, _, _, _, _⟩ => ⟨by omega, by omega, by omega, by omega,
        by omega, by omega, by omega⟩⟩
    simp only [create_of_isInt hint, hint, not_true, false_or, true_and, and_self]
    rcases hinit : initRsChar 8 gfpoly firstRoot primElem (n - k) (255 - n) with
      (_ | _ | _) | rsData
    · have hout := hrange.mp hinit
      exact ⟨iff_of_false (by simp) fun h => hout h.1, iff_of_false (by simp) fun h => hout h.1,
        iff_of_true rfl hout⟩
    · exact absurd hinit initRsChar_ne_notPrimitive
    · have hin : InRange n k firstRoot primElem := by
        by_contra hout
        cases (hrange.mpr hout).symm.trans hinit
      have hcoprime : ¬primElem.toNat.Coprime 255 := fun hcoprime => by
        have hok : ∃ rs, initRsChar 8 gfpoly firstRoot primElem (n - k) (255 - n) = .ok rs :=
          exists_initRsChar (admissible_iff.mpr ⟨hin, hcoprime⟩)
        obtain ⟨rs, hok⟩ := hok
        cases hok.symm.trans hinit
      exact ⟨iff_of_false (by simp) fun h => hcoprime h.2, iff_of_true rfl ⟨hin, hcoprime⟩,
        iff_of_false (by simp) fun h => h hin⟩
    · have hok := admissible_iff.mp (codec_of_initRsChar hinit (coprime_of_initRsChar hinit)).1
      exact ⟨iff_of_true ⟨_, rfl⟩ hok, iff_of_false (by simp) fun h => h.2 hok.2,
        iff_of_false (by simp) fun h => h hok.1⟩
  · have hout : ¬InRange n k firstRoot primElem := fun hin => hint hin.isInt
    rw [create_of_not_isInt hint]
    exact ⟨iff_of_false (by simp) fun h => hout h.1, iff_of_true rfl (Or.inl hint),
      iff_of_false (by simp) fun h => hint h.1⟩

theorem create_cases_default :
    ((∃ rs, ReedSolomon.create 255 207 false 0x11d 1 1 = .ok rs) ↔
      InRange 255 207 1 1 ∧ (1 : ℤ).toNat.Coprime 255) ∧
    (ReedSolomon.create 255 207 false 0x11d 1 1 = .error .overflow ↔
      ¬(IsInt (255 - 207) ∧ IsInt (255 - 255)) ∨
        InRange 255 207 1 1 ∧ ¬(1 : ℤ).toNat.Coprime 255) ∧
    (ReedSolomon.create 255 207 false 0x11d 1 1 = .error (.invalidArgument
        ("Invalid Reed-Solomon parameters! N=" ++ toString (255 : ℤ) ++ " ; K=" ++
          toString (207 : ℤ) ++ " ; pad=" ++ toString (255 - 255 : ℤ))) ↔
      (IsInt (255 - 207) ∧ IsInt (255 - 255)) ∧ ¬InRange 255 207 1 1) :=
  create_cases 0x11d 255 207 1 1 false

/-! ## Correcting -/

def differences (v w : List UInt8) : Finset ℕ :=
  (Finset.range v.length).filter fun j => v.getD j 0 ≠ w.getD j 0

theorem card_errorPositions {rs : Rs} {code data : List UInt8} (hpad : rs.pad ≤ 255)
    (hcode : code.length = 255 - rs.pad) :
    (errorPositions rs code data).card = (differences code data).card := by
  refine (Finset.card_bij (fun j _ => rs.pad + j) (fun j hj => ?_)
    (fun i _ j _ h => Nat.add_left_cancel h) fun p hp => ?_).symm
  · obtain ⟨hlt, hne⟩ := Finset.mem_filter.mp hj
    rw [Finset.mem_range] at hlt
    refine mem_errorPositions.mpr ⟨by omega, ?_⟩
    rw [errorAt, if_pos (Nat.le_add_right _ _), Nat.add_sub_cancel_left, ne_eq,
      UInt8.xor_eq_zero_iff]
    exact Ne.symm hne
  · obtain ⟨hlt, hne⟩ := mem_errorPositions.mp hp
    rw [errorAt] at hne
    split at hne
    · refine ⟨p - rs.pad, Finset.mem_filter.mpr ⟨Finset.mem_range.mpr (by omega), ?_⟩,
        by omega⟩
      rw [ne_eq, UInt8.xor_eq_zero_iff] at hne
      exact Ne.symm hne
    · exact absurd rfl hne

section

variable {rs : Rs} {g : BitVec 8} [Primitive g] {code data : List UInt8}

theorem Codec.corrects (h : Codec rs g) (hcode : Codeword rs g code)
    (hlen : data.length = 255 - rs.pad) (hfew : 2 * (differences code data).card ≤ rs.nroots) :
    (Fec.decodeRsChar rs data []).data = code ∧
      (Fec.decodeRsChar rs data []).count = (differences code data).card := by
  have hcard : (errorPositions rs code data).card = (differences code data).card :=
    card_errorPositions (by have := h.room; omega) hcode.length
  obtain ⟨hdata, hcount, -⟩ := h.decodeRsChar hcode hlen List.nodup_nil (by simp)
    (by simpa [hcard] using hfew)
  refine ⟨hdata, hcount.trans ?_⟩
  split
  · rename_i heq
    have hnone := (errorPositions_eq_empty_iff hcode.length hlen).mpr heq
    rw [← hcard, hnone]
  · simp [hcard]

theorem Codec.distance (h : Codec rs g) (hcode : Codeword rs g code) (hdata : Codeword rs g data)
    (hne : data ≠ code) : rs.nroots < (differences code data).card := by
  by_contra hle
  have hcard : (errorPositions rs code data).card = (differences code data).card :=
    card_errorPositions (by have := h.room; omega) hcode.length
  refine hne ((h.syndromes_eq_zero_iff hcode hdata.length (by omega)).mp ?_)
  obtain ⟨hlength, hsyndromes⟩ := h.syndromes hdata.length
  refine (foldl_or_eq_zero_iff _ _).mpr ⟨rfl, fun x hx => ?_⟩
  obtain ⟨j, hj, rfl⟩ := List.getElem_of_mem hx
  have hj' : j < rs.nroots := hlength ▸ hj
  have hsym := hsyndromes j hj'
  rwa [hdata.wordAt j hj', sym_eq_zero_iff, List.getD_eq_getElem _ _ hj] at hsym

end

/-! ## The codec in both directions -/

section

variable {gfpoly : ℕ} [Primitive (BitVec.ofNat 8 gfpoly)] {n k firstRoot primElem : ℤ}
  {reverse : Bool} {rs : ReedSolomon}

theorem codec_of_create (h : ReedSolomon.create n k reverse gfpoly firstRoot primElem = .ok rs) :
    Codec rs.rsData (BitVec.ofNat 8 gfpoly) ∧ rs.n = n ∧ rs.k = k ∧ rs.k ≤ rs.n ∧
      rs.rsData.nroots = rs.n - rs.k ∧ 255 - rs.rsData.pad = rs.n ∧ rs.reverse = reverse := by
  obtain ⟨hinit, hn, hk, hreverse⟩ := initRsChar_of_create h
  obtain ⟨hadmissible, hcodec, hnroots, hpad⟩ :=
    codec_of_initRsChar hinit (coprime_of_initRsChar hinit)
  obtain ⟨⟨_, _, _, _, _, _, _⟩, -⟩ := admissible_iff.mp hadmissible
  exact ⟨hcodec, by omega, by omega, by omega, by omega, by omega, hreverse⟩

/-- The data and the parity that the codec leaves make up a word of the code. -/
theorem codeword_of_encode
    (h : ReedSolomon.create n k false gfpoly firstRoot primElem = .ok rs) (hkn : k < n)
    {data fec : List UInt8} (hdata : data.length = k) (hfec : fec.length = n - k) :
    (rs.encode data fec).ret = 0 ∧ (rs.encode data fec).data = data ∧
      ((rs.encode data fec).fec.length : ℤ) = n - k ∧
      Codeword rs.rsData (BitVec.ofNat 8 gfpoly) (data ++ (rs.encode data fec).fec) := by
  obtain ⟨hcodec, hn, hk, hle, hnroots, hpad, hreverse⟩ := codec_of_create h
  have hpos : 1 ≤ rs.rsData.nroots := by omega
  have hlen : data.length = 255 - rs.rsData.nroots - rs.rsData.pad := by omega
  have hparity := (hcodec.encodeRsChar hpos hlen).1
  have hencode : rs.encode data fec = { ret := 0, data, fec := encodeRsChar rs.rsData data } := by
    rw [ReedSolomon.encode, if_neg (by rw [hreverse]; decide),
      List.drop_eq_nil_of_le (by omega), List.append_nil]
  rw [hencode]
  exact ⟨rfl, rfl, by simp only; omega, hcodec.codeword hpos hlen⟩

/-- A codec in reverse restores what it encoded, with up to half as many errors as there are
parity bytes, wherever they are. -/
theorem restored_of_encode
    (h : ReedSolomon.create n k false gfpoly firstRoot primElem = .ok rs) (hkn : k < n)
    {data fec data' fec' : List UInt8} (hdata : data.length = k) (hfec : fec.length = n - k)
    (hdata' : data'.length = k) (hfec' : fec'.length = n - k)
    (hfew : 2 * ((differences (data ++ (rs.encode data fec).fec) (data' ++ fec')).card : ℤ) ≤
      n - k) :
    (rs.setReverse true).encode data' fec' = {
      ret := (differences (data ++ (rs.encode data fec).fec) (data' ++ fec')).card
      data := data
      fec := (rs.encode data fec).fec } := by
  obtain ⟨hcodec, hn, hk, hle, hnroots, hpad, -⟩ := codec_of_create h
  obtain ⟨-, -, hsent, hcode⟩ := codeword_of_encode h hkn hdata hfec
  generalize (rs.encode data fec).fec = sent at hsent hcode hfew ⊢
  obtain ⟨hrestored, hcount⟩ := hcodec.corrects hcode
    (show (data' ++ fec').length = _ by rw [List.length_append]; omega) (by omega)
  have htake : data'.take rs.k ++ fec'.take (rs.n - rs.k) = data' ++ fec' := by
    rw [List.take_of_length_le (by omega), List.take_of_length_le (by omega)]
  have hsplit : (data ++ sent).take rs.k = data ∧ (data ++ sent).drop rs.k = sent := by
    rw [List.take_left' (by omega), List.drop_left' (by omega)]
    exact ⟨rfl, rfl⟩
  simp only [ReedSolomon.encode, ReedSolomon.setReverse, if_true, htake, hrestored, hcount,
    hsplit, List.drop_eq_nil_of_le (show data'.length ≤ rs.k by omega),
    List.drop_eq_nil_of_le (show fec'.length ≤ rs.n - rs.k by omega), List.append_nil]
  split
  · rfl
  · -- Without errors the buffers are left alone.
    have hnone : (differences (data ++ sent) (data' ++ fec')).card = 0 := by omega
    have hsame := hcodec.data_decodeRsChar (data' ++ fec') [] (Or.inl (by rw [hcount, hnone]; rfl))
    rw [hrestored] at hsame
    obtain ⟨hdata'', hfec''⟩ := List.append_inj hsame (by omega)
    rw [hdata'', hfec'']

theorem create_short : ReedSolomon.create 10 6 false 0x11d 1 1 = .ok {
    n := 10
    k := 6
    rsData := withGenpoly (tableBlock 8 0x11d 1 1 4 245 1)
    reverse := false } := by
  decide +kernel

theorem restored_of_encode_short :
    let rs : ReedSolomon :=
      { n := 10, k := 6, rsData := withGenpoly (tableBlock 8 0x11d 1 1 4 245 1), reverse := false }
    let sent := rs.encode [1, 2, 3, 4, 5, 6] [0, 0, 0, 0]
    (rs.setReverse true).encode [1, 2, 0, 4, 5, 6] [169, 57, 0, 79] = {
      ret := (differences ([1, 2, 3, 4, 5, 6] ++ sent.fec)
        ([1, 2, 0, 4, 5, 6] ++ [169, 57, 0, 79])).card
      data := [1, 2, 3, 4, 5, 6]
      fec := sent.fec } :=
  restored_of_encode create_short (by decide) (by decide) (by decide) (by decide) (by decide)
    (by decide +kernel)

/-- Different data are sent as words that differ in more places than there are parity bytes. -/
theorem lt_card_differences
    (h : ReedSolomon.create n k false gfpoly firstRoot primElem = .ok rs) (hkn : k < n)
    {data fec data' fec' : List UInt8} (hdata : data.length = k) (hfec : fec.length = n - k)
    (hdata' : data'.length = k) (hfec' : fec'.length = n - k) (hne : data ≠ data') :
    n - k < (differences (data ++ (rs.encode data fec).fec)
      (data' ++ (rs.encode data' fec').fec)).card := by
  obtain ⟨hcodec, hn, hk, hle, hnroots, -, -⟩ := codec_of_create h
  obtain ⟨-, -, -, hcode⟩ := codeword_of_encode h hkn hdata hfec
  obtain ⟨-, -, -, hcode'⟩ := codeword_of_encode h hkn hdata' hfec'
  have hwords : data' ++ (rs.encode data' fec').fec ≠ data ++ (rs.encode data fec).fec :=
    fun heq => hne (List.append_inj heq (by omega)).1.symm
  have := hcodec.distance hcode hcode' hwords
  omega

theorem lt_card_differences_short :
    let rs : ReedSolomon :=
      { n := 10, k := 6, rsData := withGenpoly (tableBlock 8 0x11d 1 1 4 245 1), reverse := false }
    (10 - 6 : ℤ) < (differences
      ([1, 2, 3, 4, 5, 6] ++ (rs.encode [1, 2, 3, 4, 5, 6] [0, 0, 0, 0]).fec)
      ([1, 2, 3, 4, 5, 7] ++ (rs.encode [1, 2, 3, 4, 5, 7] [0, 0, 0, 0]).fec)).card :=
  lt_card_differences create_short (by decide) (by decide) (by decide) (by decide) (by decide)
    (by decide)

/-- The two ways to call the codec agree, whichever direction it works in and whatever is in
the buffers. -/
theorem encodeInPlace_append
    (h : ReedSolomon.create n k reverse gfpoly firstRoot primElem = .ok rs) (hkn : k < n)
    (state : Bool) {data fec : List UInt8} (hdata : data.length = k) (hfec : fec.length = n - k) :
    (rs.setReverse state).encodeInPlace (data ++ fec) =
      (((rs.setReverse state).encode data fec).ret, ((rs.setReverse state).encode data fec).data ++
        ((rs.setReverse state).encode data fec).fec) := by
  obtain ⟨hcodec, hn, hk, hle, hnroots, hpad, -⟩ := codec_of_create h
  have hlen : (data ++ fec).length = rs.n := by rw [List.length_append]; omega
  have htake : data.take rs.k = data := List.take_of_length_le (by omega)
  have hdrop : data.drop rs.k = [] := List.drop_eq_nil_of_le (by omega)
  have htake' : fec.take (rs.n - rs.k) = fec := List.take_of_length_le (by omega)
  have hdrop' : fec.drop (rs.n - rs.k) = [] := List.drop_eq_nil_of_le (by omega)
  cases state with
  | true =>
    simp only [ReedSolomon.encodeInPlace, ReedSolomon.encode, ReedSolomon.setReverse, if_true,
      htake, hdrop, htake', hdrop', List.append_nil]
    split
    · rw [List.take_append_drop]
    · rename_i hcount
      rw [hcodec.data_decodeRsChar]
      rwa [not_and_or, not_not, not_not] at hcount
  | false =>
    -- The encoder reads the data only.
    have hroom : rs.rsData.nn - rs.rsData.nroots - rs.rsData.pad = data.length := by
      rw [hcodec.nn]
      omega
    have hparity : encodeRsChar rs.rsData (data ++ fec) = encodeRsChar rs.rsData data := by
      rw [encodeRsChar, encodeRsChar, hroom, List.take_left, List.take_length]
    simp only [ReedSolomon.encodeInPlace, ReedSolomon.encode, ReedSolomon.setReverse,
      Bool.false_eq_true, if_false, hparity, hdrop', List.append_nil,
      List.drop_eq_nil_of_le hlen.le]
    rw [List.take_left' (by omega)]

theorem encodeInPlace_append_short :
    let rs : ReedSolomon :=
      { n := 10, k := 6, rsData := withGenpoly (tableBlock 8 0x11d 1 1 4 245 1), reverse := false }
    (rs.setReverse true).encodeInPlace ([1, 2, 3, 4, 5, 6] ++ [7, 8, 9, 10]) =
      (((rs.setReverse true).encode [1, 2, 3, 4, 5, 6] [7, 8, 9, 10]).ret,
        ((rs.setReverse true).encode [1, 2, 3, 4, 5, 6] [7, 8, 9, 10]).data ++
          ((rs.setReverse true).encode [1, 2, 3, 4, 5, 6] [7, 8, 9, 10]).fec) :=
  encodeInPlace_append create_short (by decide) true (by decide) (by decide)

end

end SourceCompanion.Fec
