import SourceCompanion.Edi.DSTI
import SourceCompanion.Run.Mealy

/-! # Reading the tags of a stream

The management items of a stream count on, whatever is written in them, and a payload item is
written in full or not at all. A reader gets back what was set.
-/

namespace SourceCompanion.Edi

open Bytes Tlv

/-! ## Management -/

structure Settings where
  stihf : Bool
  atstf : Bool
  rfadf : Bool
  stat : UInt8
  spid : UInt16
  utco : UInt8
  seconds : UInt32
  tsta : UInt32
  tsta_lt : tsta.toNat < 2 ^ 24
  rfad : Vector UInt8 9

/-- The item with the settings. The frame counter stays. -/
def TagDSTI.configure (t : TagDSTI) (c : Settings) : TagDSTI where
  stihf := c.stihf
  atstf := c.atstf
  rfadf := c.rfadf
  dlfc := t.dlfc
  stat := c.stat
  spid := c.spid
  utco := c.utco
  seconds := c.seconds
  tsta := c.tsta
  rfad := c.rfad

def TagDSTI.step (t : TagDSTI) (c : Settings) : List UInt8 × TagDSTI := (t.configure c).assemble

def Settings.management (c : Settings) (dfct : ℕ) : Management where
  dfctl := dfct % 250
  dfcth := dfct / 250
  stih := if c.stihf then some (c.stat.toNat, c.spid.toNat) else none
  atst := if c.atstf then some (c.utco.toNat, c.seconds.toNat, c.tsta.toNat) else none
  rfad := if c.rfadf then some c.rfad.toList else none

/-- The number of bytes that the header and the fields take. -/
def Management.size (m : Management) : ℕ :=
  2 + (if m.stih.isSome then 3 else 0) + (if m.atst.isSome then 8 else 0) +
    if m.rfad.isSome then 9 else 0

/-- A reader gets the settings and the frame counter back, and nothing is left over. -/
def ReadsDSTI (packet : List UInt8) (c : Settings) (dfct : ℕ) : Prop :=
  ∃ value, splitTag packet = some ((ascii ['d', 's', 't', 'i'], value), []) ∧
    readDSTI value = c.management dfct ∧ value.length = (readDSTI value).size ∧
    (readDSTI value).dfct = dfct ∧ (readDSTI value).dfctl < 250

namespace TagDSTI

variable {t : TagDSTI} {c : Settings}

theorem length_value (h : t.dlfc.toNat < 5000) :
    (TagItem.dsti t).value.length = (readDSTI (TagItem.dsti t).value).size := by
  rw [readDSTI_value h, TagItem.value]
  cases hs : t.stihf <;> cases ha : t.atstf <;> cases hr : t.rfadf <;> simp [Management.size]

theorem readsDSTI_step (h : t.dlfc.toNat < 5000) (c : Settings) :
    ReadsDSTI (t.step c).1 c t.dlfc.toNat := by
  have hlt : (t.configure c).dlfc.toNat < 5000 := h
  have hlength := Nat.lt_of_le_of_lt (t.configure c).length_value_le (by norm_num : 22 < 2 ^ 29)
  have hread : readDSTI (TagItem.dsti (t.configure c)).value = c.management t.dlfc.toNat := by
    rw [readDSTI_value hlt]
    simp only [configure, Settings.management, Nat.mod_eq_of_lt c.tsta_lt]
    rfl
  refine ⟨(TagItem.dsti (t.configure c)).value, ?_, hread, length_value hlt, ?_⟩
  · rw [step, assemble_eq, ← List.append_nil (tag _ _)]
    exact splitTag_append (TagItem.length_name _) hlength
  · rw [hread]
    exact ⟨Nat.div_add_mod' _ 250, Nat.mod_lt _ (by norm_num)⟩

theorem dlfc_step (t : TagDSTI) (c : Settings) :
    (t.step c).2.dlfc.toNat = (t.dlfc.toNat + 1) % 5000 :=
  dlfc_assemble _

theorem dlfc_state (h : t.dlfc.toNat < 5000) (settings : List Settings) :
    (Mealy.state step t settings).dlfc.toNat = (t.dlfc.toNat + settings.length) % 5000 := by
  induction settings generalizing t with
  | nil => exact (Nat.mod_eq_of_lt h).symm
  | cons c settings ih =>
    have hnext := dlfc_step t c
    rw [Mealy.state_cons, ih (by omega), hnext, List.length_cons]
    omega

theorem readsDSTI_outputs (h : t.dlfc = 0) (settings : List Settings) (n : ℕ)
    (hn : settings[n]? = some c) :
    ∃ packet, (Mealy.outputs step t settings)[n]? = some packet ∧
      ReadsDSTI packet c (n % 5000) := by
  have hstart : t.dlfc.toNat = 0 := congrArg UInt16.toNat h
  have hlength : (settings.take n).length = n :=
    List.length_take_of_le (List.getElem?_eq_some_iff.mp hn).1.le
  have hcount := dlfc_state (by omega : t.dlfc.toNat < 5000) (settings.take n)
  rw [hstart, hlength, Nat.zero_add] at hcount
  have hread := readsDSTI_step (by omega) c (t := Mealy.state step t (settings.take n))
  rw [hcount] at hread
  refine ⟨_, ?_, hread⟩
  rw [Mealy.outputs_getElem?, hn, Option.map_some]

end TagDSTI

/-! ## Payload -/

structure Stream where
  id : ℕ
  rfa : ℕ
  tid : ℕ
  tidext : ℕ
  crcstf : Bool
  stid : ℕ
  istdData : List UInt8
  deriving DecidableEq

/-- A reader of a payload item. It checks the name and the length field. -/
def readSSm (packet : List UInt8) : Option Stream :=
  let istc := ofBE (slice packet 8 3)
  if packet.take 2 = ascii ['s', 's'] ∧
      ofBE (slice packet 4 4) = (packet.length - 8) * 8 % 2 ^ 32 then
    some {
      id := ofBE (slice packet 2 2)
      rfa := istc / 2 ^ 19
      tid := istc / 2 ^ 16 % 2 ^ 3
      tidext := istc / 2 ^ 13 % 2 ^ 3
      crcstf := istc / 2 ^ 12 % 2 = 1
      stid := istc % 2 ^ 12
      istdData := packet.drop 11 }
  else none

namespace TagSSm

variable {t : TagSSm}

def stream (t : TagSSm) : Stream where
  id := t.id.toNat
  rfa := t.rfa.toNat
  tid := t.tid.toNat
  tidext := t.tidext.toNat
  crcstf := t.crcstf
  stid := t.stid.toNat
  istdData := t.istdData

structure InRange (t : TagSSm) : Prop where
  rfa : t.rfa.toNat < 2 ^ 5
  tid : t.tid.toNat < 2 ^ 3
  tidext : t.tidext.toNat < 2 ^ 3
  stid : t.stid.toNat < 2 ^ 12

theorem check_eq_ok_iff : t.check = .ok () ↔ t.InRange := by
  have hrfa : t.rfa > 0x1F ↔ 2 ^ 5 ≤ t.rfa.toNat := UInt8.lt_iff_toNat_lt
  have htid : t.tid > 0x7 ↔ 2 ^ 3 ≤ t.tid.toNat := UInt8.lt_iff_toNat_lt
  have htidext : t.tidext > 0x7 ↔ 2 ^ 3 ≤ t.tidext.toNat := UInt8.lt_iff_toNat_lt
  have hstid : t.stid > 0x0FFF ↔ 2 ^ 12 ≤ t.stid.toNat := UInt16.lt_iff_toNat_lt
  simp only [check, hrfa, htid, htidext, hstid]
  split_ifs with h₁ h₂ h₃ h₄
  · exact iff_of_false (by rintro ⟨⟩) fun h => h₁.not_gt h.rfa
  · exact iff_of_false (by rintro ⟨⟩) fun h => h₂.not_gt h.tid
  · exact iff_of_false (by rintro ⟨⟩) fun h => h₃.not_gt h.tidext
  · exact iff_of_false (by rintro ⟨⟩) fun h => h₄.not_gt h.stid
  · exact iff_of_true rfl ⟨not_le.mp h₁, not_le.mp h₂, not_le.mp h₃, not_le.mp h₄⟩

theorem toNat_shiftLeft_toUInt32 (b : UInt8) {k : UInt32} {n : ℕ} (hb : b.toNat < 2 ^ n)
    (hk : n + k.toNat ≤ 24) : (b.toUInt32 <<< k).toNat = b.toNat * 2 ^ k.toNat := by
  have hpow : 2 ^ n * 2 ^ k.toNat ≤ 2 ^ 24 := by
    rw [← Nat.pow_add]
    exact Nat.pow_le_pow_right (by norm_num) hk
  have hlt : b.toNat * 2 ^ k.toNat < 2 ^ 32 := by
    refine Nat.lt_of_le_of_lt (Nat.mul_le_mul_right _ hb.le) ?_
    omega
  rw [UInt32.toNat_shiftLeft, UInt8.toNat_toUInt32, Nat.mod_eq_of_lt (by omega : k.toNat < 32),
    Nat.shiftLeft_eq, Nat.mod_eq_of_lt hlt]

/-- The fields of the header do not overlap. -/
theorem toNat_istc (h : t.InRange) :
    t.istc.toNat = t.stid.toNat + t.crcstf.toNat * 2 ^ 12 + t.tidext.toNat * 2 ^ 13 +
      t.tid.toNat * 2 ^ 16 + t.rfa.toNat * 2 ^ 19 := by
  obtain ⟨hrfa, htid, htidext, hstid⟩ := h
  have hcrcstf := t.crcstf.toNat_lt
  have h₁ : (t.rfa.toUInt32 <<< 19).toNat = t.rfa.toNat * 2 ^ 19 :=
    toNat_shiftLeft_toUInt32 t.rfa hrfa (by decide)
  have h₂ : (t.tid.toUInt32 <<< 16).toNat = t.tid.toNat * 2 ^ 16 :=
    toNat_shiftLeft_toUInt32 t.tid htid (by decide)
  have h₃ : (t.tidext.toUInt32 <<< 13).toNat = t.tidext.toNat * 2 ^ 13 :=
    toNat_shiftLeft_toUInt32 t.tidext htidext (by decide)
  have h₄ : (t.crcstf.toUInt32 <<< 12).toNat = t.crcstf.toNat * 2 ^ 12 := by
    cases t.crcstf <;> rfl
  have hor₁ := or_mul_two_pow (k := 12) (x := t.stid.toNat) hstid t.crcstf.toNat
  have hor₂ := or_mul_two_pow (k := 13) (x := t.stid.toNat + t.crcstf.toNat * 2 ^ 12) (by omega)
    t.tidext.toNat
  have hor₃ := or_mul_two_pow (k := 16)
    (x := t.stid.toNat + t.crcstf.toNat * 2 ^ 12 + t.tidext.toNat * 2 ^ 13) (by omega)
    t.tid.toNat
  have hor₄ := or_mul_two_pow (k := 19)
    (x := t.stid.toNat + t.crcstf.toNat * 2 ^ 12 + t.tidext.toNat * 2 ^ 13 +
      t.tid.toNat * 2 ^ 16) (by omega) t.rfa.toNat
  -- The source sets the fields from the top, the lemmas add them from the bottom.
  rw [← hor₄, ← hor₃, ← hor₂, ← hor₁]
  simp only [istc, UInt32.toNat_or, h₁, h₂, h₃, h₄, UInt16.toNat_toUInt32]
  ac_rfl

theorem readSSm_tag (h : t.InRange) :
    readSSm (tag (TagItem.ssm t).name (TagItem.ssm t).value) = some t.stream := by
  obtain ⟨packet, hpacket⟩ : ∃ packet, tag (TagItem.ssm t).name (TagItem.ssm t).value = packet :=
    ⟨_, rfl⟩
  have hname : packet.take 2 = ascii ['s', 's'] := hpacket ▸ rfl
  have hid : slice packet 2 2 = be16 t.id := hpacket ▸ rfl
  have hlength : slice packet 4 4 = be32 (UInt32.ofNat ((TagItem.ssm t).value.length * 8)) :=
    hpacket ▸ rfl
  have hheader : slice packet 8 3 = be24 t.istc := hpacket ▸ rfl
  have hdata : packet.drop 11 = t.istdData := hpacket ▸ rfl
  have hsize : packet.length - 8 = (TagItem.ssm t).value.length := by
    rw [← hpacket, length_tag, TagItem.length_name]
    omega
  have hbits : (UInt32.ofNat ((TagItem.ssm t).value.length * 8)).toNat =
      (TagItem.ssm t).value.length * 8 % 2 ^ 32 := UInt32.toNat_ofNat'
  have histc := toNat_istc h
  obtain ⟨hrfa, htid, htidext, hstid⟩ := h
  have hcrcstf := t.crcstf.toNat_lt
  have hlow : t.istc.toNat % 2 ^ 24 = t.istc.toNat := Nat.mod_eq_of_lt (by omega)
  rw [hpacket, readSSm, hname, hid, hlength, hheader, hdata, hsize, ofBE_be32, ofBE_be24, ofBE_be16,
    hbits, hlow, if_pos ⟨rfl, rfl⟩, Option.some.injEq, stream, Stream.mk.injEq]
  have hflag : t.istc.toNat / 2 ^ 12 % 2 = t.crcstf.toNat := by omega
  refine ⟨rfl, by omega, by omega, by omega, ?_, by omega, rfl⟩
  simp only [hflag, Bool.toNat_eq_one, Bool.decide_coe]

theorem assemble_of_not_inRange (h : ¬ t.InRange) : ∃ e, t.assemble = .error e := by
  rcases hcheck : t.check with e | u
  · refine ⟨e, ?_⟩
    rw [assemble_eq, hcheck]
    rfl
  · exact absurd (check_eq_ok_iff.mp hcheck) h

theorem assemble_of_inRange (h : t.InRange) :
    t.assemble = .ok (tag (TagItem.ssm t).name (TagItem.ssm t).value) := by
  rw [assemble_eq, check_eq_ok_iff.mpr h]
  rfl

theorem splitTag_ssm (h : t.istdData.length + 3 < 2 ^ 29) :
    splitTag (tag (TagItem.ssm t).name (TagItem.ssm t).value) =
      some (((TagItem.ssm t).name, be24 t.istc ++ t.istdData), []) := by
  have hlength : (be24 t.istc ++ t.istdData).length < 2 ^ 29 := by
    rw [List.length_append, length_be24]
    omega
  rw [← List.append_nil (tag _ _)]
  exact splitTag_append (TagItem.length_name _) hlength

end TagSSm

/-- Each management item of a stream is read back with its number as the frame counter. A payload
item throws if a field does not fit, and is read back otherwise. -/
theorem tags_readBack :
    (∀ (t : TagDSTI) (settings : List Settings) (n : ℕ) (c : Settings), t.dlfc = 0 →
      settings[n]? = some c → ∃ packet, (Mealy.outputs TagDSTI.step t settings)[n]? = some packet ∧
        ReadsDSTI packet c (n % 5000)) ∧
      ∀ t : TagSSm, (¬ t.InRange ∧ ∃ e, t.assemble = .error e) ∨
        t.InRange ∧ ∃ packet, t.assemble = .ok packet ∧ readSSm packet = some t.stream ∧
          (t.istdData.length + 3 < 2 ^ 29 →
            splitTag packet = some ((packet.take 4, packet.drop 8), [])) := by
  refine ⟨fun t settings n c h hn => TagDSTI.readsDSTI_outputs h settings n hn, fun t => ?_⟩
  by_cases h : t.InRange
  · refine .inr ⟨h, _, TagSSm.assemble_of_inRange h, TagSSm.readSSm_tag h, fun hlength => ?_⟩
    exact TagSSm.splitTag_ssm hlength
  · exact .inl ⟨h, TagSSm.assemble_of_not_inRange h⟩

def plainSettings : Settings where
  stihf := false
  atstf := false
  rfadf := false
  stat := 0
  spid := 0
  utco := 0
  seconds := 0
  tsta := 0
  tsta_lt := by decide
  rfad := Vector.replicate 9 0

theorem tags_readBack_two :
    ({} : TagDSTI).dlfc = 0 ∧ [plainSettings, plainSettings][1]? = some plainSettings ∧
      ∃ packet, (Mealy.outputs TagDSTI.step {} [plainSettings, plainSettings])[1]? = some packet ∧
        ReadsDSTI packet plainSettings 1 :=
  ⟨rfl, rfl, tags_readBack.1 {} [plainSettings, plainSettings] 1 plainSettings rfl rfl⟩

end SourceCompanion.Edi
