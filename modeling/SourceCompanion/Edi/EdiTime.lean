import SourceCompanion.Edi.TagItems

/-! # The EDI time

The seconds of the management item count from the year 2000 with all leap seconds, and UTCO is
their distance to UTC. It has eight bits, and the seconds are computed from what is left of the
offset in them.
-/

namespace SourceCompanion.Edi

def posixTimestamp2000 : ℤ := 946684800

/-- The seconds are 32 behind TAI and UTCO ahead of UTC. -/
structure EdiTime (tag : TagDSTI) (t taiUtcOffset : ℤ) : Prop where
  tai : (tag.seconds.toNat : ℤ) = t - posixTimestamp2000 + (taiUtcOffset - 32)
  utc : (tag.seconds.toNat : ℤ) - tag.utco.toNat = t - posixTimestamp2000
  utco : (tag.utco.toNat : ℤ) = taiUtcOffset - 32

namespace TagDSTI

variable {t taiUtcOffset : ℤ}

theorem utco_setEdiTime (tag : TagDSTI) (t taiUtcOffset : ℤ) :
    ((tag.setEdiTime t taiUtcOffset).utco.toNat : ℤ) = (taiUtcOffset - 32) % 256 := by
  simp only [setEdiTime, UInt8.ofInt, UInt8.toNat_ofNat']
  omega

theorem seconds_setEdiTime (tag : TagDSTI) (taiUtcOffset : ℤ)
    (ht : posixTimestamp2000 ≤ t ∧ t < posixTimestamp2000 + 2 ^ 31) :
    ((tag.setEdiTime t taiUtcOffset).seconds.toNat : ℤ) =
      t - posixTimestamp2000 + (tag.setEdiTime t taiUtcOffset).utco.toNat := by
  have hlt := (tag.setEdiTime t taiUtcOffset).utco.toNat_lt
  have hseconds : (tag.setEdiTime t taiUtcOffset).seconds =
      UInt32.ofInt (t - posixTimestamp2000 + (tag.setEdiTime t taiUtcOffset).utco.toNat) := rfl
  rw [hseconds, UInt32.ofInt, UInt32.toNat_ofNat']
  omega

/-- Both relations hold exactly while the offset less 32 fits eight bits. -/
theorem ediTime_iff (tag : TagDSTI)
    (ht : posixTimestamp2000 ≤ t ∧ t < posixTimestamp2000 + 2 ^ 31)
    (hoffset : 0 ≤ taiUtcOffset ∧ taiUtcOffset ≤ 500) :
    EdiTime (tag.setEdiTime t taiUtcOffset) t taiUtcOffset ↔
      32 ≤ taiUtcOffset ∧ taiUtcOffset ≤ 287 := by
  have hseconds := tag.seconds_setEdiTime taiUtcOffset ht
  have hutco := tag.utco_setEdiTime t taiUtcOffset
  constructor
  · rintro ⟨-, -, hfits⟩
    omega
  · intro hrange
    refine ⟨?_, ?_, ?_⟩ <;> omega

theorem ediTime_2017 :
    (posixTimestamp2000 ≤ 1483228800 ∧ (1483228800 : ℤ) < posixTimestamp2000 + 2 ^ 31) ∧
      (0 ≤ (37 : ℤ) ∧ (37 : ℤ) ≤ 500) ∧
      (EdiTime (({} : TagDSTI).setEdiTime 1483228800 37) 1483228800 37 ↔
        32 ≤ (37 : ℤ) ∧ (37 : ℤ) ≤ 287) :=
  ⟨by decide, by decide, ediTime_iff {} (by decide) (by decide)⟩

/-- With an offset of 31 the seconds are 255 ahead of UTC, not one behind. -/
theorem ediTime_not_31 :
    (posixTimestamp2000 ≤ 1483228800 ∧ (1483228800 : ℤ) < posixTimestamp2000 + 2 ^ 31) ∧
      (({} : TagDSTI).setEdiTime 1483228800 31).utco = 255 ∧
      ¬ EdiTime (({} : TagDSTI).setEdiTime 1483228800 31) 1483228800 31 := by
  have hwraps : (({} : TagDSTI).setEdiTime 1483228800 31).utco = 255 := by decide
  refine ⟨by decide, hwraps, fun h => ?_⟩
  have hutco := h.utco
  rw [hwraps] at hutco
  exact absurd hutco (by decide)

end TagDSTI

end SourceCompanion.Edi
