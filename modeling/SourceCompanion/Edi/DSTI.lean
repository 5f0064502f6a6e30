import SourceCompanion.Edi.TagItems

/-! # Reading the management item

The header of the management item holds the frame counter in two parts and says which of the
optional fields follow. A reader recovers all fields while the counter is below 5000.
-/

namespace SourceCompanion.Edi

open Bytes

/-- What the management item says: the two parts of the frame counter, and the optional
fields. -/
structure Management where
  dfctl : ℕ
  dfcth : ℕ
  stih : Option (ℕ × ℕ)
  atst : Option (ℕ × ℕ × ℕ)
  rfad : Option (List UInt8)
  deriving DecidableEq

def Management.dfct (m : Management) : ℕ := m.dfcth * 250 + m.dfctl

def Management.tsta (m : Management) : Option ℕ := m.atst.map fun atst => atst.2.2

def readDSTI (value : List UInt8) : Management :=
  let header := ofBE (slice value 0 2)
  let stihf := header / 2 ^ 15 % 2 = 1
  let atstf := header / 2 ^ 14 % 2 = 1
  let rfadf := header / 2 ^ 13 % 2 = 1
  let atst := if stihf then 5 else 2
  let rfad := if atstf then atst + 8 else atst
  { dfctl := header % 2 ^ 8
    dfcth := header / 2 ^ 8 % 2 ^ 5
    stih := if stihf then some (ofBE (slice value 2 1), ofBE (slice value 3 2)) else none
    atst :=
      if atstf then
        some (ofBE (slice value atst 1), ofBE (slice value (atst + 1) 4),
          ofBE (slice value (atst + 5) 3))
      else none
    rfad := if rfadf then some (slice value rfad 9) else none }

theorem toNat_shiftLeft {x k : UInt16} (hk : k.toNat < 16) (hx : x.toNat * 2 ^ k.toNat < 2 ^ 16) :
    (x <<< k).toNat = x.toNat * 2 ^ k.toNat := by
  rw [UInt16.toNat_shiftLeft, Nat.mod_eq_of_lt hk, Nat.shiftLeft_eq, Nat.mod_eq_of_lt hx]

theorem toNat_flag (b : Bool) {k : UInt16} (hk : k.toNat < 16) :
    (b.toUInt16 <<< k).toNat = b.toNat * 2 ^ k.toNat := by
  have hb : b.toUInt16.toNat = b.toNat := by cases b <;> rfl
  have hpow : 2 ^ k.toNat < 2 ^ 16 := Nat.pow_lt_pow_right (by omega) hk
  rw [toNat_shiftLeft hk, hb]
  rw [hb]
  cases b
  · simp
  · simpa using hpow

namespace TagDSTI

variable {t : TagDSTI}

theorem toNat_dstiHeader (h : t.dlfc.toNat < 5000) :
    t.dstiHeader.toNat = t.dlfc.toNat % 250 + t.dlfc.toNat / 250 * 2 ^ 8 +
      t.rfadf.toNat * 2 ^ 13 + t.atstf.toNat * 2 ^ 14 + t.stihf.toNat * 2 ^ 15 := by
  have hl : (t.dlfc % 250).toUInt8.toUInt16.toNat = t.dlfc.toNat % 250 := by
    simp
    omega
  have hh : (t.dlfc / 250).toUInt8.toUInt16.toNat = t.dlfc.toNat / 250 := by
    simp
    omega
  have hh8 : ((t.dlfc / 250).toUInt8.toUInt16 <<< 8).toNat = t.dlfc.toNat / 250 * 2 ^ 8 := by
    rw [toNat_shiftLeft (by decide) (by rw [hh]; simp; omega), hh]
    rfl
  have hr : (t.rfadf.toUInt16 <<< 13).toNat = t.rfadf.toNat * 2 ^ 13 := toNat_flag _ (by decide)
  have ha : (t.atstf.toUInt16 <<< 14).toNat = t.atstf.toNat * 2 ^ 14 := toNat_flag _ (by decide)
  have hs : (t.stihf.toUInt16 <<< 15).toNat = t.stihf.toNat * 2 ^ 15 := toNat_flag _ (by decide)
  have hrlt := t.rfadf.toNat_lt
  have halt := t.atstf.toNat_lt
  have h8 := or_mul_two_pow (k := 8) (x := t.dlfc.toNat % 250) (by omega) (t.dlfc.toNat / 250)
  have h13 := or_mul_two_pow (k := 13) (x := t.dlfc.toNat % 250 + t.dlfc.toNat / 250 * 2 ^ 8)
    (by omega) t.rfadf.toNat
  have h14 := or_mul_two_pow (k := 14)
    (x := t.dlfc.toNat % 250 + t.dlfc.toNat / 250 * 2 ^ 8 + t.rfadf.toNat * 2 ^ 13)
    (by omega) t.atstf.toNat
  have h15 := or_mul_two_pow (k := 15)
    (x := t.dlfc.toNat % 250 + t.dlfc.toNat / 250 * 2 ^ 8 + t.rfadf.toNat * 2 ^ 13 +
      t.atstf.toNat * 2 ^ 14) (by omega) t.stihf.toNat
  simp only [dstiHeader, UInt16.toNat_or, hl, hh8, hr, ha, hs]
  rw [h8, h13, h14, h15]

theorem dlfc_assemble (t : TagDSTI) : t.assemble.2.dlfc.toNat = (t.dlfc.toNat + 1) % 5000 := by
  have hlt : (t.dlfc.toNat + 1) % 5000 < 2 ^ 16 := (Nat.mod_lt _ (by omega)).trans (by norm_num)
  exact UInt16.toNat_ofNat_of_lt' hlt

theorem dlfc_assemble_lt (t : TagDSTI) : t.assemble.2.dlfc.toNat < 5000 := by
  rw [dlfc_assemble]
  exact Nat.mod_lt _ (by omega)

/-! The optional fields follow each other, and the flags say where. -/

theorem slice_stih (hs : t.stihf = true) :
    slice (TagItem.dsti t).value 2 1 = [t.stat] ∧
      slice (TagItem.dsti t).value 3 2 = be16 t.spid := by
  simp [TagItem.value, hs, slice, be16]

theorem slice_atst (ha : t.atstf = true) :
    slice (TagItem.dsti t).value (if t.stihf = true then 5 else 2) 1 = [t.utco] ∧
      slice (TagItem.dsti t).value ((if t.stihf = true then 5 else 2) + 1) 4 = be32 t.seconds ∧
      slice (TagItem.dsti t).value ((if t.stihf = true then 5 else 2) + 5) 3 = be24 t.tsta := by
  cases hs : t.stihf <;> simp [TagItem.value, ha, hs, slice, be16, be24, be32]

theorem slice_rfad (hr : t.rfadf = true) :
    slice (TagItem.dsti t).value
      (if t.atstf = true then (if t.stihf = true then 5 else 2) + 8
        else if t.stihf = true then 5 else 2) 9 = t.rfad.toList := by
  have hlength : t.rfad.toList.length ≤ 9 := t.rfad.length_toList.le
  cases hs : t.stihf <;> cases ha : t.atstf <;>
    simp [TagItem.value, ha, hs, hr, slice, be16, be24, be32, List.take_of_length_le hlength]

/-- The reader recovers the fields that the item was written with. -/
theorem readDSTI_value (h : t.dlfc.toNat < 5000) :
    readDSTI (TagItem.dsti t).value = {
      dfctl := t.dlfc.toNat % 250
      dfcth := t.dlfc.toNat / 250
      stih := if t.stihf then some (t.stat.toNat, t.spid.toNat) else none
      atst :=
        if t.atstf then some (t.utco.toNat, t.seconds.toNat, t.tsta.toNat % 2 ^ 24) else none
      rfad := if t.rfadf then some t.rfad.toList else none } := by
  have hheader : ofBE (slice (TagItem.dsti t).value 0 2) = t.dstiHeader.toNat := by
    rw [← ofBE_be16]
    rfl
  have hr := t.rfadf.toNat_lt
  have ha := t.atstf.toNat_lt
  have hs := t.stihf.toNat_lt
  obtain ⟨low, hlow, heq⟩ : ∃ low < 2 ^ 13, t.dstiHeader.toNat = low +
      t.rfadf.toNat * 2 ^ 13 + t.atstf.toNat * 2 ^ 14 + t.stihf.toNat * 2 ^ 15 :=
    ⟨_, by omega, toNat_dstiHeader h⟩
  have hstihf : t.dstiHeader.toNat / 2 ^ 15 % 2 = t.stihf.toNat := by omega
  have hatstf : t.dstiHeader.toNat / 2 ^ 14 % 2 = t.atstf.toNat := by omega
  have hrfadf : t.dstiHeader.toNat / 2 ^ 13 % 2 = t.rfadf.toNat := by omega
  have hdfctl : t.dstiHeader.toNat % 2 ^ 8 = t.dlfc.toNat % 250 := by
    rw [toNat_dstiHeader h]
    omega
  have hdfcth : t.dstiHeader.toNat / 2 ^ 8 % 2 ^ 5 = t.dlfc.toNat / 250 := by
    rw [toNat_dstiHeader h]
    omega
  simp only [readDSTI, hheader, hstihf, hatstf, hrfadf, hdfctl, hdfcth, Bool.toNat_eq_one,
    Management.mk.injEq, true_and]
  refine ⟨if_ctx_congr Iff.rfl (fun hs => ?_) fun _ => rfl,
    if_ctx_congr Iff.rfl (fun ha => ?_) fun _ => rfl,
    if_ctx_congr Iff.rfl (fun hr => ?_) fun _ => rfl⟩
  · rw [(slice_stih hs).1, (slice_stih hs).2, ofBE_singleton, ofBE_be16]
  · rw [(slice_atst ha).1, (slice_atst ha).2.1, (slice_atst ha).2.2, ofBE_singleton, ofBE_be32,
      ofBE_be24]
  · rw [slice_rfad hr]

end TagDSTI

end SourceCompanion.Edi
