import SourceCompanion.Edi.AFPacket
import SourceCompanion.Edi.Fragments
import SourceCompanion.Framing.Basic

/-! # EDI packets in a stream

A TCP destination gets AF packets, or fragments of them, one after the other. Both kinds announce
their size in their header.
-/

namespace SourceCompanion.Edi

open Bytes

def packetSize (stream : List UInt8) : Option ℕ :=
  if stream.length < 12 then none
  else if slice stream 0 2 = ascii ['A', 'F'] then some (10 + ofBE (slice stream 2 4) + 2)
  else if slice stream 0 2 = ascii ['P', 'F'] then
    let flags := ofBE (slice stream 10 2)
    let headerLen := 12 + (if flags / 2 ^ 15 % 2 = 1 then 2 else 0) +
      (if flags / 2 ^ 14 % 2 = 1 then 4 else 0)
    some (headerLen + 2 + flags % 2 ^ 14)
  else none

def packetFraming : Framing UInt8 where
  size := packetSize
  pos h := by
    simp only [packetSize] at h
    split at h
    · cases h
    · split at h
      · obtain rfl := Option.some.inj h
        omega
      · split at h
        · obtain rfl := Option.some.inj h
          omega
        · cases h
  size_append rest h := by
    simp only [packetSize] at h ⊢
    split at h
    · cases h
    · rename_i hlen
      rw [if_neg (by rw [List.length_append]; omega), slice_append_left (by omega),
        slice_append_left (by omega), slice_append_left (by omega)]
      exact h

theorem delimited_of_readAFPacket {packet : List UInt8} {p : ℕ × List UInt8}
    (h : readAFPacket packet = some p) : packetFraming.Delimited packet := by
  simp only [readAFPacket, Option.ite_none_right_eq_some] at h
  obtain ⟨⟨hsync, hlength, -⟩, -⟩ := h
  change packetSize packet = some packet.length
  rw [packetSize, if_neg (by omega), if_pos (show slice packet 0 2 = _ from hsync), ← hlength]

end SourceCompanion.Edi
