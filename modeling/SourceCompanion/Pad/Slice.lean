import SourceCompanion.AVTInput.Provision
import SourceCompanion.Pad.Interface

/-! # The slice of a reply

The last byte of a reply is taken as it is, and the slice ends in front of it. It lies inside the
reply if it is not longer than the PAD field.
-/

namespace SourceCompanion.Pad

variable {padlen : ℕ} {padData : List UInt8}

theorem calculatedPadlen_lt (padlen : ℕ) (padData : List UInt8) :
    calculatedPadlen padlen padData < 256 := UInt8.toNat_lt _

theorem sliceStart_eq (hpadlen : padlen ≤ 255) {size : ℕ} (hsize : size < 256) :
    sliceStart padlen size = padlen - size := by
  have hwrap := Int.emod_bmod ((padlen : ℤ) - size) (2 ^ 64)
  rw [Nat.cast_pow, Nat.cast_ofNat] at hwrap
  rw [sliceStart, hwrap]
  apply Int.bmod_eq_of_le <;> omega

theorem length_bytesFrom (padData : List UInt8) (around : ℤ → UInt8) (start : ℤ) (size : ℕ) :
    (bytesFrom padData around start size).length = size := by
  simp [bytesFrom]

/-- Inside the reply, the bytes are those of the reply. -/
theorem bytesFrom_inside (around : ℤ → UInt8) {start size : ℕ}
    (hinside : start + size ≤ padData.length) :
    bytesFrom padData around start size = (padData.drop start).take size := by
  apply List.ext_getElem
  · rw [length_bytesFrom, List.length_take, List.length_drop]
    omega
  · intro i hi hi'
    rw [length_bytesFrom] at hi
    have hin : 0 ≤ (start : ℤ) + i ∧ (start : ℤ) + i < padData.length := by omega
    have hindex : ((start : ℤ) + i).toNat = start + i := by omega
    simp only [bytesFrom, List.getElem_map, List.getElem_range, List.getElem_take,
      List.getElem_drop, byteAt, if_pos hin, hindex]
    exact (List.getElem_eq_getD 0).symm

theorem pushReply_apply (os : Os) (padlen : ℕ) (padData : List UInt8) (s : Filler) :
    pushReply os padlen padData s =
      (.ok (), { s with input := s.input.pushPADFrame (bytesFrom padData
          (os.memory s.interface.receives) (sliceStart padlen (calculatedPadlen padlen padData))
          (calculatedPadlen padlen padData)) },
        [.slice (sliceStart padlen (calculatedPadlen padlen padData))
          (calculatedPadlen padlen padData)]) := rfl

/-- The slice lies inside the reply and ends in front of its last byte, and what is queued are the
last bytes of the PAD field in reversed order. -/
structure SliceInside (padlen : ℕ) (padData : List UInt8) : Prop where
  inside : ∀ (os : Os) (s : Filler) (start : ℤ) (size : ℕ),
    .slice start size ∈ (pushReply os padlen padData s).2.2 → 0 ≤ start ∧ start + size = padlen
  queued : ∀ (os : Os) (s : Filler),
    (pushReply os padlen padData s).2.1.input.padFrameQueue =
      s.input.padFrameQueue ++
        if s.input.padPort = 0 ∨ calculatedPadlen padlen padData = 0 then []
        else [((padData.take padlen).drop (padlen - calculatedPadlen padlen padData)).reverse]

/-- Everything is sent, nothing is received, and the memory is zero. -/
def silentOs : Os where
  sendto _ packet := .ok packet.length
  recvfrom _ := .error .again
  memory _ _ := 0

/-- The slice of a reply is inside it, exactly if the announced length is at most that of the PAD
field. -/
theorem sliceInside_iff (hpadlen : padlen ≤ 255) (hlen : padData.length = padlen + 1) :
    SliceInside padlen padData ↔ calculatedPadlen padlen padData ≤ padlen := by
  have hstart := sliceStart_eq hpadlen (calculatedPadlen_lt padlen padData)
  constructor
  · intro h
    have hinside := (h.inside silentOs { interface := { padIdent := [] }, input := .new [] [] 0 0 }
      _ _ List.mem_cons_self).1
    rw [hstart] at hinside
    omega
  · intro hle
    have hstart' : sliceStart padlen (calculatedPadlen padlen padData) =
        (padlen - calculatedPadlen padlen padData : ℕ) := by
      rw [hstart, Nat.cast_sub hle]
    constructor
    · intro os s start size hslice
      rw [pushReply_apply, hstart] at hslice
      obtain ⟨rfl, rfl⟩ := Event.slice.inj (List.mem_singleton.mp hslice)
      omega
    · intro os s
      rw [pushReply_apply]
      dsimp only
      rw [AVTInput.Endpoint.padFrameQueue_pushPADFrame, length_bytesFrom, hstart',
        bytesFrom_inside _ (by omega), List.drop_take]
      congr 5
      omega

/-- A reply to a request for one byte that announces two of them. -/
theorem slice_before_reply : ¬ SliceInside 1 [0, 2] := by
  intro h
  have hstart := (h.inside silentOs { interface := { padIdent := [] }, input := .new [] [] 0 0 }
    (-1) 2 (by decide +kernel)).1
  omega

theorem slice_inside_reply : SliceInside 1 [7, 1] :=
  (sliceInside_iff (by decide) rfl).mpr (by decide)

end SourceCompanion.Pad
