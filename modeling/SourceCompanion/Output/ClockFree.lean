import SourceCompanion.ClockTAI.Offset
import SourceCompanion.Output.EDI

/-! # Packets without timestamps

Without timestamps no byte of a packet depends on the offset between TAI and UTC. Still every
packet asks the clock for it, and is not sent if the clock has none.
-/

namespace SourceCompanion.Output

open Edi ClockTAI

/-- The offset that a call of `get_offset` gives the output, or what it throws. -/
def clockOffset (clock : Refresh) (timeNow : ℤ) (fetched : Outcome) : Except String ℤ :=
  match (clock.getOffset timeNow fetched).1 with
  | .ok offset => .ok offset
  | .error (.runtimeError what) => .error what
  | .error (.logicError what) => .error what

/-- The exception among the result of the clock and that of the transport, if any. That of the clock
comes first. -/
def stops (taiOffset : Except String ℤ) (transport : Except String Unit) : Option String :=
  match taiOffset, transport with
  | .error e, _ => some e
  | .ok _, .error e => some e
  | .ok _, .ok () => none

namespace EDI

variable {s : EDI} {buf : List UInt8}

theorem value_dstiToSend (h : s.tist = false) (o₁ o₂ : ℤ) :
    (TagItem.dsti (s.dstiToSend o₁)).value = (TagItem.dsti (s.dstiToSend o₂)).value := by
  simp [dstiToSend, TagDSTI.setEdiTime, TagItem.value, TagDSTI.dstiHeader, h]

theorem exists_packet (h : s.tist = false) (buf : List UInt8) (sendsVersion : Bool) :
    ∃ packet, ∀ taiUtcOffset, (s.afPacketiser.assemble
      (s.tagPacket (s.dstiToSend taiUtcOffset) buf sendsVersion)).1.1 = .ok packet := by
  have hbytes : ∀ taiUtcOffset,
      ((s.tagPacket (s.dstiToSend taiUtcOffset) buf sendsVersion).tagItems.flatMap
        fun t => Tlv.tag t.name t.value) =
      (s.tagPacket (s.dstiToSend 0) buf sendsVersion).tagItems.flatMap
        fun t => Tlv.tag t.name t.value := by
    intro taiUtcOffset
    simp only [tagPacket, List.cons_append, List.flatMap_cons, value_dstiToSend h taiUtcOffset 0,
      TagItem.name]
  refine ⟨afPacket s.afPacketiser.seq (TagPacket.pad s.tagpacketAlignment
    ((s.tagPacket (s.dstiToSend 0) buf sendsVersion).tagItems.flatMap
      fun t => Tlv.tag t.name t.value)), fun taiUtcOffset => ?_⟩
  have hitems := TagPacket.assembleItems_eq
    (s.tagPacket_checks (s.dstiToSend taiUtcOffset) buf sendsVersion)
  rw [hbytes] at hitems
  simp only [AFPacketiser.assemble, TagPacket.assemble, hitems]
  rfl

/-- Without timestamps the outcome of a call depends on the offset only through what stops the
call. -/
theorem exists_outcome (h : s.tist = false) (buf : List UInt8) (steady : ℤ)
    (transport : Except String Unit) :
    ∃ packet, ∀ taiOffset, (s.writeFrame buf ⟨taiOffset, steady, transport⟩).1 =
      match stops taiOffset transport with
      | some e => .error e
      | none => .ok packet := by
  obtain ⟨packet, hpacket⟩ :=
    exists_packet h buf (s.timeLastVersionSent + 10 * second < steady)
  refine ⟨packet, fun taiOffset => ?_⟩
  cases taiOffset with
  | error e => rfl
  | ok taiUtcOffset =>
    have hp := hpacket taiUtcOffset
    unfold writeFrame
    dsimp only
    generalize s.afPacketiser.assemble _ = result at hp ⊢
    obtain ⟨⟨answer, tagPacket⟩, afPacketiser⟩ := result
    obtain rfl : answer = .ok packet := hp
    cases transport <;> rfl

/-- Without timestamps two results of asking the clock lead to the same outcome exactly when the
same exception stops both calls, or none stops any. -/
theorem writeFrame_eq_iff (h : s.tist = false) (buf : List UInt8) (steady : ℤ)
    (transport : Except String Unit) (r₁ r₂ : Except String ℤ) :
    (s.writeFrame buf ⟨r₁, steady, transport⟩).1 = (s.writeFrame buf ⟨r₂, steady, transport⟩).1 ↔
      stops r₁ transport = stops r₂ transport := by
  obtain ⟨packet, houtcome⟩ := exists_outcome h buf steady transport
  rw [houtcome, houtcome]
  cases stops r₁ transport <;> cases stops r₂ transport <;> simp

/-- Timestamps are disabled, and still the first frame is not sent when neither the cache nor a
download gives an offset. -/
theorem clock_failure_stops_frame :
    clockOffset {} 0 (.ok ⟨true, 1, 37⟩) = .ok 37 ∧
    clockOffset {} 0 (.error .downloadFailed) = .error "Unable to download TAI bulletin" ∧
    (({ timeLastVersionSent := 0 } : EDI).writeFrame [1]
      ⟨clockOffset {} 0 (.error .downloadFailed), 0, .ok ()⟩).1 =
        .error "Unable to download TAI bulletin" ∧
    ¬ (({ timeLastVersionSent := 0 } : EDI).writeFrame [1]
        ⟨clockOffset {} 0 (.ok ⟨true, 1, 37⟩), 0, .ok ()⟩).1 =
      (({ timeLastVersionSent := 0 } : EDI).writeFrame [1]
        ⟨clockOffset {} 0 (.error .downloadFailed), 0, .ok ()⟩).1 := by
  refine ⟨rfl, rfl, rfl, fun heq => ?_⟩
  obtain ⟨packet, houtcome⟩ := exists_outcome (s := { timeLastVersionSent := 0 }) rfl [1] 0 (.ok ())
  rw [houtcome, houtcome] at heq
  cases heq

theorem writeFrame_two_offsets :
    (({ timeLastVersionSent := 0 } : EDI).writeFrame [1] ⟨.ok 37, 0, .ok ()⟩).1 =
      (({ timeLastVersionSent := 0 } : EDI).writeFrame [1] ⟨.ok 38, 0, .ok ()⟩).1 :=
  (writeFrame_eq_iff rfl [1] 0 (.ok ()) (.ok 37) (.ok 38)).mpr rfl

end EDI

end SourceCompanion.Output
