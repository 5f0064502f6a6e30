import SourceCompanion.Edi.AFPacket
import SourceCompanion.Edi.DSTI

/-! # The EDI output

`setTist` sets the time base for the frames that follow and `writeFrame` wraps a frame into an
AF packet and hands it over for transmission. The frame counter and the sequence number
count on with every packet.
-/

namespace SourceCompanion.Output

open Bytes Tlv Edi

def millisecond : ℤ := 1000000

def second : ℤ := 1000000000

/-- What a call of `writeFrame` meets: the offset between TAI and UTC in seconds, which may not
be available, the steady time in nanoseconds, and what the transport of the packet throws, if
anything. -/
structure Env where
  taiOffset : Except String ℤ
  steady : ℤ
  transport : Except String Unit := .ok ()

/-- The offset is available and the transport takes the packet. -/
def Env.Serves (env : Env) (taiUtcOffset : ℤ) : Prop :=
  env.taiOffset = .ok taiUtcOffset ∧ env.transport = .ok ()

/-- The output with the configuration that the packets depend on. -/
structure EDI where
  odrVersionTag : List UInt8 := []
  tagpacketAlignment : UInt32 := 0
  tist : Bool := false
  delayMs : UInt32 := 0
  tagDSTI : TagDSTI := {}
  timestamp : UInt32 := 0
  numFramesSent : UInt32 := 0
  ediTime : ℤ := 0
  timeLastVersionSent : ℤ
  audioLeft : Int16 := 0
  audioRight : Int16 := 0
  afPacketiser : AFPacketiser := {}

namespace EDI

def updateAudioLevels (s : EDI) (audioLeft audioRight : Int16) : EDI :=
  { s with audioLeft, audioRight }

/-- Set the time base from a capture time in nanoseconds since the epoch. -/
def setTist (s : EDI) (enable : Bool) (delayMs : UInt32) (ts : ℤ) : Except String Unit × EDI :=
  let s := { s with tist := enable, delayMs }
  let tsWithDelay := ts + delayMs.toNat * millisecond
  let tsS := tsWithDelay.tdiv second
  let remainder := tsWithDelay - tsS * second
  if remainder < 0 then (.error "EDI::set_tist remainder duration negative!", s)
  else
    let remainderMs := UInt32.ofInt (remainder.tdiv millisecond)
    (.ok (), { s with ediTime := tsS, timestamp := s.timestamp + remainderMs <<< 14 })

/-- The management item as `writeFrame` fills it in. The frame counter is kept. -/
def dstiToSend (s : EDI) (taiUtcOffset : ℤ) : TagDSTI :=
  let tagDSTI := { s.tagDSTI with stihf := false, atstf := s.tist }
  { tagDSTI.setEdiTime s.ediTime taiUtcOffset with
    tsta := s.timestamp &&& 0xffffff, rfadf := false }

/-- The items of a packet. The version is sent from time to time only. -/
def tagPacket (s : EDI) (tagDSTI : TagDSTI) (buf : List UInt8) (sendsVersion : Bool) :
    TagPacket where
  tagItems := [.starPTR .sti, .dsti tagDSTI,
      .ssm { istdData := buf }, .odrAudioLevels ⟨s.audioLeft, s.audioRight⟩] ++
    if sendsVersion then [.odrVersion ⟨s.odrVersionTag, s.numFramesSent * 1000 / 24⟩] else []
  alignment := s.tagpacketAlignment

/-- Send a frame. The answer is the AF packet that is sent, for which the source returns `true`,
or what is thrown. -/
def writeFrame (s : EDI) (buf : List UInt8) (env : Env) : Except String (List UInt8) × EDI :=
  match env.taiOffset with
  | .error e => (.error e, { s with tagDSTI.stihf := false, tagDSTI.atstf := s.tist })
  | .ok taiUtcOffset =>
    let tagDSTI := s.dstiToSend taiUtcOffset
    let sendsVersion := s.timeLastVersionSent + 10 * second < env.steady
    let timeLastVersionSent :=
      if sendsVersion then s.timeLastVersionSent + 10 * second else s.timeLastVersionSent
    let ((answer, tagPacket), afPacketiser) :=
      s.afPacketiser.assemble (s.tagPacket tagDSTI buf sendsVersion)
    let s := { s with
      tagDSTI := tagPacket.dsti?.getD tagDSTI, timeLastVersionSent, afPacketiser }
    match answer, env.transport with
    | .error e, _ => (.error e, s)
    | .ok _, .error e => (.error e, s)
    | .ok packet, .ok () => (.ok packet, { s with numFramesSent := s.numFramesSent + 1 })

/-! ## What a packet carries -/

variable {s : EDI} {buf : List UInt8} {env : Env} {taiUtcOffset : ℤ}

def sent (s : EDI) (env : Env) (taiUtcOffset : ℤ) : EDI :=
  { s with
    tagDSTI := (s.dstiToSend taiUtcOffset).assemble.2
    timeLastVersionSent :=
      if s.timeLastVersionSent + 10 * second < env.steady then
        s.timeLastVersionSent + 10 * second
      else s.timeLastVersionSent
    afPacketiser := { seq := s.afPacketiser.seq + 1 }
    numFramesSent := s.numFramesSent + 1 }

theorem tagPacket_checks (s : EDI) (tagDSTI : TagDSTI) (buf : List UInt8) (sendsVersion : Bool) :
    ∀ u ∈ (s.tagPacket tagDSTI buf sendsVersion).tagItems, u.Fits ∧ u.check = .ok () := by
  cases sendsVersion <;> simp [tagPacket, TagItem.Fits, TagItem.check, TagSSm.check]

def dstiName : List UInt8 := ascii ['d', 's', 't', 'i']

def ssName : List UInt8 := ascii ['s', 's'] ++ be16 1

def ssValue (buf : List UInt8) : List UInt8 := (TagItem.ssm { istdData := buf }).value

theorem contents_tagPacket (s : EDI) (tagDSTI : TagDSTI) (buf : List UInt8) (sendsVersion : Bool) :
    ∃ more, (s.tagPacket tagDSTI buf sendsVersion).contents =
      (ascii ['*', 'p', 't', 'r'], ascii ['D', 'S', 'T', 'I'] ++ [0, 0, 0, 0]) ::
        (dstiName, (TagItem.dsti tagDSTI).value) ::
        (ssName, ssValue buf) :: more :=
  ⟨_, rfl⟩

theorem findTag_tagPacket (s : EDI) (tagDSTI : TagDSTI) (buf : List UInt8) (sendsVersion : Bool)
    (rest : List UInt8) :
    findTag dstiName
        ((s.tagPacket tagDSTI buf sendsVersion).contents.flatMap (fun u => tag u.1 u.2) ++ rest) =
          some (TagItem.dsti tagDSTI).value ∧
      ((ssValue buf).length < 2 ^ 29 →
        findTag ssName
          ((s.tagPacket tagDSTI buf sendsVersion).contents.flatMap (fun u => tag u.1 u.2) ++
            rest) = some (ssValue buf)) := by
  obtain ⟨more, hmore⟩ := s.contents_tagPacket tagDSTI buf sendsVersion
  have hdsti : (TagItem.dsti tagDSTI).value.length < 2 ^ 29 :=
    Nat.lt_of_le_of_lt tagDSTI.length_value_le (by norm_num)
  rw [hmore, List.flatMap_cons, List.flatMap_cons, List.flatMap_cons, List.append_assoc,
    List.append_assoc, List.append_assoc]
  refine ⟨?_, fun hss => ?_⟩
  · rw [findTag_append rfl (by simp), if_neg (by decide), findTag_append rfl hdsti, if_pos rfl]
  · rw [findTag_append rfl (by simp), if_neg (by decide), findTag_append rfl hdsti,
      if_neg (show dstiName ≠ ssName by decide), findTag_append rfl hss, if_pos rfl]

def Due (s : EDI) (env : Env) : Prop := s.timeLastVersionSent + 10 * second < env.steady

instance (s : EDI) (env : Env) : Decidable (s.Due env) := inferInstanceAs (Decidable (_ < _))

/-- While the offset is available, a call makes a packet that carries the items and hands it to the
transport. -/
theorem writeFrame_contents (h : env.taiOffset = .ok taiUtcOffset) (s : EDI) (buf : List UInt8) :
    ∃ packet rest, (s.writeFrame buf env = match env.transport with
        | .error e => (.error e, { s.sent env taiUtcOffset with numFramesSent := s.numFramesSent })
        | .ok () => (.ok packet, s.sent env taiUtcOffset)) ∧
      ∀ name, tagValue name packet =
        findTag name ((s.tagPacket (s.dstiToSend taiUtcOffset) buf (s.Due env)).contents.flatMap
          (fun u => tag u.1 u.2) ++ rest) := by
  obtain ⟨zeros, -, hassemble⟩ := TagPacket.assemble_eq
    (t := s.tagPacket (s.dstiToSend taiUtcOffset) buf (s.Due env)) rfl (s.tagPacket_checks _ buf _)
  have hpacketiser := AFPacketiser.assemble_of_ok (s := s.afPacketiser) hassemble
  obtain ⟨payload, hpayload⟩ : ∃ payload,
      (s.tagPacket (s.dstiToSend taiUtcOffset) buf (s.Due env)).contents.flatMap
        (fun u => tag u.1 u.2) = payload := ⟨_, rfl⟩
  rw [hpayload] at hpacketiser
  obtain ⟨crc, hvalue⟩ := tagValue_afPacket s.afPacketiser.seq (payload ++ zeros)
  refine ⟨afPacket s.afPacketiser.seq (payload ++ zeros), zeros ++ crc, ?_, fun name => ?_⟩
  · have hdue : decide (s.timeLastVersionSent + 10 * second < env.steady) = decide (s.Due env) :=
      rfl
    rw [writeFrame, h]
    dsimp only
    rw [hdue, hpacketiser]
    cases env.transport <;> rfl
  · rw [hvalue, hpayload, List.append_assoc]

theorem writeFrame_of_offset (h : env.taiOffset = .ok taiUtcOffset) (s : EDI) (buf : List UInt8) :
    ∃ packet, (s.writeFrame buf env = match env.transport with
        | .error e => (.error e, { s.sent env taiUtcOffset with numFramesSent := s.numFramesSent })
        | .ok () => (.ok packet, s.sent env taiUtcOffset)) ∧
      tagValue dstiName packet = some (TagItem.dsti (s.dstiToSend taiUtcOffset)).value ∧
      ((ssValue buf).length < 2 ^ 29 → tagValue ssName packet = some (ssValue buf)) := by
  obtain ⟨packet, rest, hwrite, hvalue⟩ := writeFrame_contents h s buf
  obtain ⟨hdsti, hss⟩ := s.findTag_tagPacket (s.dstiToSend taiUtcOffset) buf (s.Due env) rest
  exact ⟨packet, hwrite, (hvalue _).trans hdsti, fun hlength => (hvalue _).trans (hss hlength)⟩

theorem writeFrame_of_serves (h : env.Serves taiUtcOffset) (s : EDI) (buf : List UInt8) :
    ∃ packet, s.writeFrame buf env = (.ok packet, s.sent env taiUtcOffset) ∧
      tagValue dstiName packet = some (TagItem.dsti (s.dstiToSend taiUtcOffset)).value ∧
      ((ssValue buf).length < 2 ^ 29 → tagValue ssName packet = some (ssValue buf)) := by
  obtain ⟨packet, hwrite, hvalues⟩ := writeFrame_of_offset h.1 s buf
  rw [h.2] at hwrite
  exact ⟨packet, hwrite, hvalues⟩

theorem writeFrame_of_not_serves (h : ¬ ∃ taiUtcOffset, env.Serves taiUtcOffset) (s : EDI)
    (buf : List UInt8) :
    ∃ e s', s.writeFrame buf env = (.error e, s') ∧ s'.timestamp = s.timestamp ∧
      s'.ediTime = s.ediTime ∧ s'.tist = s.tist ∧
      (s'.tagDSTI.dlfc = s.tagDSTI.dlfc ∨
        ∃ taiUtcOffset, s'.tagDSTI = (s.dstiToSend taiUtcOffset).assemble.2) := by
  cases hoff : env.taiOffset with
  | error e =>
    refine ⟨e, { s with tagDSTI.stihf := false, tagDSTI.atstf := s.tist }, ?_, rfl, rfl, rfl,
      Or.inl rfl⟩
    rw [writeFrame, hoff]
  | ok taiUtcOffset =>
    cases hsent : env.transport with
    | ok u => exact absurd ⟨taiUtcOffset, hoff, hsent⟩ h
    | error e =>
      obtain ⟨packet, hwrite, -⟩ := writeFrame_of_offset hoff s buf
      rw [hsent] at hwrite
      exact ⟨e, _, hwrite, rfl, rfl, rfl, Or.inr ⟨taiUtcOffset, rfl⟩⟩

end EDI

end SourceCompanion.Output
