import SourceCompanion.ClockTAI.Bulletin

/-! # The manual override

An offset that is set by hand is to hold for ten years. The field for its expiry has 32 bits only,
and the time is truncated to it.
-/

namespace SourceCompanion.ClockTAI

/-- What is left of a number in an `int`. -/
def toInt (n : ℤ) : ℤ := n.bmod (2 ^ 32)

namespace Bulletin

def tenYears : ℤ := 10 * 365 * 24 * 3600

def createWithFixedOffset (now offset : ℤ) : Bulletin where
  source := "manual override"
  bulletinOrOverride := .inr { offset, expiresAt := toInt (now + tenYears) }

def clearExpiryIfOverridden (b : Bulletin) (now : ℤ) : Bulletin :=
  match b.bulletinOrOverride with
  | .inr od => { b with bulletinOrOverride := .inr { od with expiresAt := toInt now } }
  | .inl _ => b

/-- The override is usable for ten years and counts down to their end, and it is not usable any
more from the time on at which its expiry is cleared. -/
structure OverrideHolds (now offset : ℤ) : Prop where
  usable : ∀ t, now ≤ t → t < now + tenYears →
    ((createWithFixedOffset now offset).state t).usable t = true
  offset_eq : ∀ t, now ≤ t → t < now + tenYears →
    ((createWithFixedOffset now offset).state t).offset = offset
  expiresIn : ∀ t, now ≤ t → t < now + tenYears →
    ((createWithFixedOffset now offset).state t).expiresIn t = now + tenYears - t
  cleared : ∀ cleared t, now ≤ cleared → cleared ≤ t →
    (((createWithFixedOffset now offset).clearExpiryIfOverridden cleared).state t).usable t = false

end Bulletin

theorem toInt_bounds (n : ℤ) :
    -2 ^ 31 ≤ toInt n ∧ toInt n < 2 ^ 31 ∧ toInt n % 2 ^ 32 = n % 2 ^ 32 :=
  ⟨Int.le_bmod (by norm_num), Int.bmod_lt (by norm_num), Int.bmod_emod⟩

/-- A time keeps its value exactly if it fits. -/
theorem toInt_eq_self_iff (n : ℤ) : toInt n = n ↔ -2 ^ 31 ≤ n ∧ n < 2 ^ 31 := by
  have hbounds := toInt_bounds n
  omega

theorem toInt_le_self_iff (n : ℤ) : toInt n ≤ n ↔ -2 ^ 31 ≤ n := by
  have hbounds := toInt_bounds n
  omega

namespace Bulletin

theorem expiresIn_createWithFixedOffset (now offset t : ℤ) :
    ((createWithFixedOffset now offset).state t).expiresIn t = toInt (now + tenYears) - t := rfl

theorem usable_createWithFixedOffset (now offset t : ℤ) :
    ((createWithFixedOffset now offset).state t).usable t =
      decide (0 < toInt (now + tenYears) - t) :=
  Bool.true_and _

theorem usable_clearExpiryIfOverridden (now offset cleared t : ℤ) :
    (((createWithFixedOffset now offset).clearExpiryIfOverridden cleared).state t).usable t =
      decide (0 < toInt cleared - t) :=
  Bool.true_and _

/-- The override holds exactly if the present and the end of the ten years fit the field. -/
theorem overrideHolds_iff (now offset : ℤ) :
    OverrideHolds now offset ↔ -2 ^ 31 ≤ now ∧ now + tenYears < 2 ^ 31 := by
  have hten : tenYears = 315360000 := rfl
  constructor
  · rintro ⟨-, -, hexpiresIn, hcleared⟩
    -- The end of the ten years is kept, and clearing at once leaves nothing.
    have hend := hexpiresIn now le_rfl (by omega)
    have hnone := hcleared now now le_rfl le_rfl
    rw [expiresIn_createWithFixedOffset] at hend
    rw [usable_clearExpiryIfOverridden, decide_eq_false_iff_not] at hnone
    have hfits := (toInt_eq_self_iff (now + tenYears)).mp (by omega)
    have hearly := (toInt_le_self_iff now).mp (by omega)
    exact ⟨hearly, hfits.2⟩
  · rintro ⟨hearly, hfits⟩
    have hend : toInt (now + tenYears) = now + tenYears :=
      (toInt_eq_self_iff _).mpr ⟨by omega, hfits⟩
    refine ⟨fun t _ ht => ?_, fun t _ _ => rfl, fun t _ _ => ?_, fun cleared t hnow ht => ?_⟩
    · rw [usable_createWithFixedOffset, hend, decide_eq_true_eq]
      omega
    · rw [expiresIn_createWithFixedOffset, hend]
    · have hle := (toInt_le_self_iff cleared).mpr (by omega)
      rw [usable_clearExpiryIfOverridden, decide_eq_false_iff_not]
      omega

/-- From the 22nd of January 2028 on the end does not fit any more. -/
theorem not_overrideHolds_2028 :
    (-2 ^ 63 ≤ (1832123648 : ℤ) ∧ (1832123648 : ℤ) + tenYears < 2 ^ 63) ∧
      ¬ OverrideHolds 1832123648 37 := by
  refine ⟨by decide, fun h => ?_⟩
  exact absurd (h.usable 1832123648 le_rfl (by decide)) (by decide)

end Bulletin

end SourceCompanion.ClockTAI
