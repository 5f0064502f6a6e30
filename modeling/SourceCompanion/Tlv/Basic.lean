import SourceCompanion.Bytes.BigEndian

/-! # Tags with a name, a length and a value

A tag is a name of four bytes, the length of its value in bits and the value. A sequence of
tags is read by splitting one off after the other until fewer than eight bytes remain, which
cannot hold a tag.
-/

namespace SourceCompanion.Tlv

open Bytes

def tag (name value : List UInt8) : List UInt8 :=
  name ++ be32 (UInt32.ofNat (value.length * 8)) ++ value

def splitTag (bytes : List UInt8) : Option ((List UInt8 × List UInt8) × List UInt8) :=
  let length := ofBE (slice bytes 4 4) / 8
  if 8 + length ≤ bytes.length then
    some ((bytes.take 4, slice bytes 8 length), bytes.drop (8 + length))
  else none

/-- The tags of a sequence. Every tag takes eight bytes or more, so the number of bytes is
enough fuel. -/
def readTags : ℕ → List UInt8 → Option (List (List UInt8 × List UInt8))
  | 0, _ => some []
  | fuel + 1, bytes =>
    if bytes.length < 8 then some []
    else (splitTag bytes).bind fun (t, rest) => (readTags fuel rest).map (t :: ·)

def splitTags (bytes : List UInt8) : Option (List (List UInt8 × List UInt8)) :=
  readTags bytes.length bytes

def searchTag (name : List UInt8) : ℕ → List UInt8 → Option (List UInt8)
  | 0, _ => none
  | fuel + 1, bytes =>
    (splitTag bytes).bind fun (t, rest) =>
      if t.1 = name then some t.2 else searchTag name fuel rest

def findTag (name bytes : List UInt8) : Option (List UInt8) := searchTag name bytes.length bytes

variable {name value rest : List UInt8}

@[simp] theorem length_tag (name value : List UInt8) :
    (tag name value).length = name.length + 4 + value.length := by
  simp only [tag, List.length_append, length_be32]

theorem toNat_length_bits {n : ℕ} (h : n < 2 ^ 29) : (UInt32.ofNat (n * 8)).toNat = n * 8 := by
  rw [UInt32.toNat_ofNat']
  omega

theorem slice_tag_append (hname : name.length = 4) :
    slice (tag name value ++ rest) 4 4 = be32 (UInt32.ofNat (value.length * 8)) := by
  rw [tag, List.append_assoc, List.append_assoc, slice_append_right hname.le, hname,
    slice_append_left (by simp), Nat.sub_self, slice_self (length_be32 _)]

theorem splitTag_append (hname : name.length = 4) (hvalue : value.length < 2 ^ 29) :
    splitTag (tag name value ++ rest) = some ((name, value), rest) := by
  have hlength : ofBE (slice (tag name value ++ rest) 4 4) / 8 = value.length := by
    rw [slice_tag_append hname, ofBE_be32, toNat_length_bits hvalue]
    omega
  have hhead : (name ++ be32 (UInt32.ofNat (value.length * 8))).length = 8 := by
    rw [List.length_append, hname, length_be32]
  rw [splitTag, hlength, if_pos (by simp only [List.length_append, length_tag, hname]; omega)]
  have htake : (tag name value ++ rest).take 4 = name := by
    rw [tag, List.append_assoc, List.append_assoc, List.take_left' hname]
  have hslice : slice (tag name value ++ rest) 8 value.length = value := by
    rw [tag, List.append_assoc, slice_append_right hhead.le, hhead,
      slice_append_left (by simp), Nat.sub_self, slice_self rfl]
  have hdrop : (tag name value ++ rest).drop (8 + value.length) = rest :=
    List.drop_left' (by rw [length_tag, hname])
  rw [htake, hslice, hdrop]

theorem length_of_splitTag {bytes rest : List UInt8} {t : List UInt8 × List UInt8}
    (h : splitTag bytes = some (t, rest)) : t.2.length = ofBE (slice bytes 4 4) / 8 := by
  simp only [splitTag] at h
  split_ifs at h with hlength
  obtain ⟨rfl, rfl⟩ := Prod.mk.inj (Option.some.inj h)
  rw [slice, List.length_take, List.length_drop]
  omega

theorem length_rest_of_splitTag {bytes rest : List UInt8} {t : List UInt8 × List UInt8}
    (h : splitTag bytes = some (t, rest)) : rest.length + 8 ≤ bytes.length := by
  simp only [splitTag] at h
  split_ifs at h with hlength
  obtain ⟨-, rfl⟩ := Prod.mk.inj (Option.some.inj h)
  rw [List.length_drop]
  omega

@[simp] theorem splitTag_nil : splitTag [] = none := rfl

theorem readTags_append (fuel : ℕ) (hname : name.length = 4) (hvalue : value.length < 2 ^ 29) :
    readTags (fuel + 1) (tag name value ++ rest) =
      (readTags fuel rest).map ((name, value) :: ·) := by
  rw [readTags, if_neg (by simp [hname]; omega), splitTag_append hname hvalue]
  rfl

theorem readTags_flatMap {tags : List (List UInt8 × List UInt8)} {fuel : ℕ}
    (htags : ∀ t ∈ tags, t.1.length = 4 ∧ t.2.length < 2 ^ 29) (hrest : rest.length < 8)
    (hfuel : (tags.flatMap (fun t => tag t.1 t.2) ++ rest).length ≤ fuel) :
    readTags fuel (tags.flatMap (fun t => tag t.1 t.2) ++ rest) = some tags := by
  induction tags generalizing fuel with
  | nil =>
    cases fuel with
    | zero => rfl
    | succ fuel => rw [readTags, if_pos (by simpa using hrest)]
  | cons t tags ih =>
    obtain ⟨hname, hvalue⟩ := htags t List.mem_cons_self
    rw [List.flatMap_cons, List.append_assoc] at hfuel ⊢
    rw [List.length_append, length_tag] at hfuel
    cases fuel with
    | zero => omega
    | succ fuel =>
      rw [readTags_append fuel hname hvalue,
        ih (fun t ht => htags t (List.mem_cons_of_mem _ ht)) (by omega)]
      rfl

theorem splitTags_flatMap {tags : List (List UInt8 × List UInt8)}
    (htags : ∀ t ∈ tags, t.1.length = 4 ∧ t.2.length < 2 ^ 29) (hrest : rest.length < 8) :
    splitTags (tags.flatMap (fun t => tag t.1 t.2) ++ rest) = some tags :=
  readTags_flatMap htags hrest le_rfl

theorem head_splitTags {bytes : List UInt8} {t : List UInt8 × List UInt8}
    {tags : List (List UInt8 × List UInt8)} (h : splitTags bytes = some (t :: tags)) :
    t.2.length = ofBE (slice bytes 4 4) / 8 := by
  cases bytes with
  | nil => simp [splitTags, readTags] at h
  | cons b bytes =>
    rw [splitTags, List.length_cons, readTags] at h
    split_ifs at h
    · simp at h
    · obtain ⟨⟨t', rest⟩, hsplit, h⟩ := Option.bind_eq_some_iff.mp h
      obtain ⟨tags', -, h⟩ := Option.map_eq_some_iff.mp h
      obtain ⟨rfl, -⟩ := List.cons.inj h
      exact length_of_splitTag hsplit

/-- Fuel beyond the number of bytes changes nothing. -/
theorem searchTag_congr {wanted bytes : List UInt8} {n m : ℕ} (hn : bytes.length ≤ n)
    (hm : bytes.length ≤ m) : searchTag wanted n bytes = searchTag wanted m bytes := by
  induction n generalizing m bytes with
  | zero =>
    obtain rfl := List.length_eq_zero_iff.mp (Nat.le_zero.mp hn)
    cases m <;> simp [searchTag]
  | succ n ih =>
    cases m with
    | zero =>
      obtain rfl := List.length_eq_zero_iff.mp (Nat.le_zero.mp hm)
      simp [searchTag]
    | succ m =>
      rw [searchTag, searchTag]
      cases hsplit : splitTag bytes with
      | none => rfl
      | some split =>
        obtain ⟨t, rest⟩ := split
        have hrest := length_rest_of_splitTag hsplit
        have hfuel : searchTag wanted n rest = searchTag wanted m rest :=
          ih (by omega) (by omega)
        simp only [Option.bind_some, hfuel]

theorem findTag_append (hname : name.length = 4) (hvalue : value.length < 2 ^ 29)
    (wanted : List UInt8) :
    findTag wanted (tag name value ++ rest) =
      if name = wanted then some value else findTag wanted rest := by
  obtain ⟨n, hn⟩ : ∃ n, (tag name value ++ rest).length = n + 1 :=
    Nat.exists_eq_succ_of_ne_zero (by simp [hname])
  rw [List.length_append, length_tag, hname] at hn
  rw [findTag, List.length_append, length_tag, hname, hn, searchTag,
    splitTag_append hname hvalue, Option.bind_some]
  by_cases h : name = wanted
  · simp only [h, if_true]
  · simpa only [h, if_false, findTag] using searchTag_congr (by omega) le_rfl

theorem not_splitTags_of_long (hname : name.length = 4) (hvalue : 2 ^ 29 ≤ value.length)
    (tags : List (List UInt8 × List UInt8)) :
    splitTags (tag name value ++ rest) ≠ some ((name, value) :: tags) := by
  intro h
  have hlength := head_splitTags h
  have hlt := (UInt32.ofNat (value.length * 8)).toNat_lt
  rw [slice_tag_append hname, ofBE_be32] at hlength
  dsimp only at hlength
  omega

end SourceCompanion.Tlv
