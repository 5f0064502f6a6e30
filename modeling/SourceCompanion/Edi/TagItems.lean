import SourceCompanion.Tlv.Basic

/-! # Tag items

The items of a tag packet write themselves: a name of four bytes, the length of the value in
bits and the value. Most of them leave the length free and fill it in when the value is
written.
-/

namespace SourceCompanion.Edi

open Bytes Tlv

/-- Fill in the length field of an item. -/
def writeLength (packet : List UInt8) (taglength : UInt32) : List UInt8 :=
  memcpy packet 4 (be32 taglength)

/-- The length in bits of what follows name and length field. -/
def tagLength (packet : List UInt8) : UInt32 := UInt32.ofNat ((packet.length - 8) * 8)

/-! ## Protocol type and revision -/

structure TagStarPTR where
  protocol : List UInt8
  length_protocol : protocol.length = 4

namespace TagStarPTR

def ofProtocol (protocol : List UInt8) : Except String TagStarPTR :=
  if h : protocol.length = 4 then .ok ⟨protocol, h⟩
  else .error "TagStarPTR protocol invalid length"

def sti : TagStarPTR := ⟨ascii ['D', 'S', 'T', 'I'], rfl⟩

def assemble (t : TagStarPTR) : List UInt8 :=
  ascii ['*', 'p', 't', 'r'] ++ [0, 0, 0, 0x40] ++ t.protocol ++ [0, 0] ++ [0, 0]

end TagStarPTR

/-! ## STI-D management -/

structure TagDSTI where
  stihf : Bool := false
  atstf : Bool := false
  rfadf : Bool := false
  dlfc : UInt16 := 0
  stat : UInt8 := 0
  spid : UInt16 := 0
  utco : UInt8 := 0
  seconds : UInt32 := 0
  tsta : UInt32 := 0xFFFFFF
  rfad : Vector UInt8 9 := Vector.replicate 9 0
  deriving DecidableEq

namespace TagDSTI

def dstiHeader (t : TagDSTI) : UInt16 :=
  let dfctl := (t.dlfc % 250).toUInt8
  let dfcth := (t.dlfc / 250).toUInt8
  dfctl.toUInt16 ||| (dfcth.toUInt16 <<< 8) ||| (t.rfadf.toUInt16 <<< 13) |||
    (t.atstf.toUInt16 <<< 14) ||| (t.stihf.toUInt16 <<< 15)

/-- The item and the frame counter after it, which counts modulo 5000. -/
def assemble (t : TagDSTI) : List UInt8 × TagDSTI :=
  let packet := ascii ['d', 's', 't', 'i'] ++ [0, 0, 0, 0] ++ be16 t.dstiHeader
  let packet := if t.stihf then packet ++ [t.stat] ++ be16 t.spid else packet
  let packet := if t.atstf then packet ++ [t.utco] ++ be32 t.seconds ++ be24 t.tsta else packet
  let packet := if t.rfadf then packet ++ t.rfad.toList else packet
  (writeLength packet (tagLength packet),
    { t with dlfc := UInt16.ofNat ((t.dlfc.toNat + 1) % 5000) })

/-- Set the time in seconds since 2000. `t` is in UTC. -/
def setEdiTime (tag : TagDSTI) (t taiUtcOffset : ℤ) : TagDSTI :=
  let utco := UInt8.ofInt (taiUtcOffset - 32)
  { tag with utco, seconds := UInt32.ofInt (t - 946684800 + utco.toNat) }

end TagDSTI

/-! ## Payload stream -/

structure TagSSm where
  rfa : UInt8 := 0
  tid : UInt8 := 0
  tidext : UInt8 := 0
  crcstf : Bool := false
  stid : UInt16 := 0
  istdData : List UInt8
  id : UInt16 := 1
  deriving DecidableEq

namespace TagSSm

def istc (t : TagSSm) : UInt32 :=
  (t.rfa.toUInt32 <<< 19) ||| (t.tid.toUInt32 <<< 16) ||| (t.tidext.toUInt32 <<< 13) |||
    (t.crcstf.toUInt32 <<< 12) ||| t.stid.toUInt32

def check (t : TagSSm) : Except String Unit :=
  if t.rfa > 0x1F then .error "TagSSm: invalid RFA value"
  else if t.tid > 0x7 then .error "TagSSm: invalid tid value"
  else if t.tidext > 0x7 then .error "TagSSm: invalid tidext value"
  else if t.stid > 0x0FFF then .error "TagSSm: invalid stid value"
  else .ok ()

def assemble (t : TagSSm) : Except String (List UInt8) :=
  let packet := ascii ['s', 's'] ++ be16 t.id ++ [0, 0, 0, 0]
  t.check.map fun _ =>
    let packet := packet ++ be24 t.istc ++ t.istdData
    writeLength packet (tagLength packet)

end TagSSm

/-! ## Dummy padding -/

structure TagStarDMY where
  length : UInt32
  deriving DecidableEq

def TagStarDMY.assemble (t : TagStarDMY) : List UInt8 :=
  let packet := resize (ascii ['*', 'd', 'm', 'y']) (4 + 4 + t.length).toNat
  writeLength packet (t.length * 8)

/-! ## Version of the source -/

structure TagODRVersion where
  version : List UInt8
  uptime : UInt32
  deriving DecidableEq

def TagODRVersion.assemble (t : TagODRVersion) : List UInt8 :=
  let length := t.version.length + 4
  let packet := resize (ascii ['O', 'D', 'R', 'v']) (4 + 4 + length)
  let packet := writeLength packet (UInt32.ofNat (length * 8))
  let packet := memcpy packet 8 t.version
  memcpy packet (8 + t.version.length) (be32 t.uptime)

/-! ## Audio levels -/

structure TagODRAudioLevels where
  audioLeft : Int16
  audioRight : Int16
  deriving DecidableEq

def TagODRAudioLevels.assemble (t : TagODRAudioLevels) : List UInt8 :=
  let packet := resize (ascii ['O', 'D', 'R', 'a']) (4 + 4 + 4)
  let packet := writeLength packet (4 * 8)
  let packet := memcpy packet 8 (be16 t.audioLeft.toUInt16)
  memcpy packet 10 (be16 t.audioRight.toUInt16)

/-! ## Any item -/

inductive TagItem
  | starPTR (t : TagStarPTR)
  | dsti (t : TagDSTI)
  | ssm (t : TagSSm)
  | starDMY (t : TagStarDMY)
  | odrVersion (t : TagODRVersion)
  | odrAudioLevels (t : TagODRAudioLevels)

namespace TagItem

def assemble : TagItem → Except String (List UInt8) × TagItem
  | starPTR t => (.ok t.assemble, starPTR t)
  | dsti t => (.ok t.assemble.1, dsti t.assemble.2)
  | ssm t => (t.assemble, ssm t)
  | starDMY t => (.ok t.assemble, starDMY t)
  | odrVersion t => (.ok t.assemble, odrVersion t)
  | odrAudioLevels t => (.ok t.assemble, odrAudioLevels t)

def check : TagItem → Except String Unit
  | ssm t => t.check
  | _ => .ok ()

def name : TagItem → List UInt8
  | starPTR _ => ascii ['*', 'p', 't', 'r']
  | dsti _ => ascii ['d', 's', 't', 'i']
  | ssm t => ascii ['s', 's'] ++ be16 t.id
  | starDMY _ => ascii ['*', 'd', 'm', 'y']
  | odrVersion _ => ascii ['O', 'D', 'R', 'v']
  | odrAudioLevels _ => ascii ['O', 'D', 'R', 'a']

def value : TagItem → List UInt8
  | starPTR t => t.protocol ++ [0, 0, 0, 0]
  | dsti t =>
    be16 t.dstiHeader ++ (if t.stihf then t.stat :: be16 t.spid else []) ++
      (if t.atstf then t.utco :: (be32 t.seconds ++ be24 t.tsta) else []) ++
      (if t.rfadf then t.rfad.toList else [])
  | ssm t => be24 t.istc ++ t.istdData
  | starDMY t => List.replicate t.length.toNat 0
  | odrVersion t => t.version ++ be32 t.uptime
  | odrAudioLevels t => be16 t.audioLeft.toUInt16 ++ be16 t.audioRight.toUInt16

@[simp] theorem length_name (t : TagItem) : t.name.length = 4 := by
  cases t <;> simp [name]

end TagItem

theorem TagDSTI.length_value_le (t : TagDSTI) : (TagItem.dsti t).value.length ≤ 22 := by
  simp only [TagItem.value]
  cases t.stihf <;> cases t.atstf <;> cases t.rfadf <;> simp

/-! ## What the items write -/

theorem writeLength_append {name old value : List UInt8} (hname : name.length = 4)
    (hold : old.length = 4) (n : UInt32) :
    writeLength (name ++ old ++ value) n = name ++ be32 n ++ value :=
  memcpy_append hname (by rw [hold, length_be32])

theorem writeLength_tagLength {name value packet : List UInt8} (hname : name.length = 4)
    (hpacket : packet = name ++ [0, 0, 0, 0] ++ value) :
    writeLength packet (tagLength packet) = tag name value := by
  have hlength : packet.length - 8 = value.length := by
    rw [hpacket]
    simp only [List.length_append, hname, List.length_cons, List.length_nil]
    omega
  rw [tagLength, hlength, hpacket, writeLength_append hname rfl, tag]

theorem writeLength_resize {name : List UInt8} (hname : name.length = 4) (len : ℕ) (n : UInt32) :
    writeLength (resize name (4 + 4 + len)) n = name ++ be32 n ++ List.replicate len 0 := by
  have hzeros : List.replicate (4 + 4 + len - name.length) (0 : UInt8) =
      [0, 0, 0, 0] ++ List.replicate len 0 := by
    rw [show 4 + 4 + len - name.length = 4 + len by omega, ← List.replicate_append_replicate]
    rfl
  rw [resize_eq (by omega), hzeros, ← List.append_assoc]
  exact writeLength_append hname rfl n

theorem TagStarPTR.assemble_eq (t : TagStarPTR) :
    t.assemble = tag (TagItem.starPTR t).name (TagItem.starPTR t).value := by
  have hlength : be32 (UInt32.ofNat ((TagItem.starPTR t).value.length * 8)) = [0, 0, 0, 0x40] := by
    rw [TagItem.value, List.length_append, t.length_protocol]
    rfl
  rw [tag, hlength]
  simp [assemble, TagItem.name, TagItem.value]

theorem TagDSTI.assemble_eq (t : TagDSTI) :
    t.assemble.1 = tag (TagItem.dsti t).name (TagItem.dsti t).value := by
  refine writeLength_tagLength (by simp) ?_
  simp only [TagItem.name, TagItem.value]
  cases t.stihf <;> cases t.atstf <;> cases t.rfadf <;> simp

theorem TagSSm.assemble_eq (t : TagSSm) :
    t.assemble = t.check.map fun _ => tag (TagItem.ssm t).name (TagItem.ssm t).value := by
  refine congrArg t.check.map (funext fun _ => writeLength_tagLength (by simp) ?_)
  simp [TagItem.name, TagItem.value]

theorem TagStarDMY.assemble_eq (t : TagStarDMY) (h : 8 + t.length.toNat < 2 ^ 32) :
    t.assemble = tag (TagItem.starDMY t).name (TagItem.starDMY t).value := by
  have hsize : (4 + 4 + t.length).toNat = 4 + 4 + t.length.toNat := by
    rw [UInt32.toNat_add]
    exact Nat.mod_eq_of_lt h
  have hbits : t.length * 8 = UInt32.ofNat (t.length.toNat * 8) := by
    rw [UInt32.ofNat_mul, UInt32.ofNat_toNat]
    rfl
  rw [assemble, hsize, writeLength_resize (by simp), hbits]
  simp [tag, TagItem.name, TagItem.value]

theorem TagODRVersion.assemble_eq (t : TagODRVersion) :
    t.assemble = tag (TagItem.odrVersion t).name (TagItem.odrVersion t).value := by
  simp only [assemble]
  rw [writeLength_resize (by simp), ← List.replicate_append_replicate,
    ← List.append_assoc, memcpy_append (by simp) (by simp),
    ← List.append_nil (_ ++ List.replicate 4 0),
    memcpy_append (by simp only [List.length_append, length_ascii, length_be32]; rfl) (by simp)]
  simp [tag, TagItem.name, TagItem.value]

theorem TagODRAudioLevels.assemble_eq (t : TagODRAudioLevels) :
    t.assemble = tag (TagItem.odrAudioLevels t).name (TagItem.odrAudioLevels t).value := by
  simp only [assemble]
  rw [writeLength_resize (by simp)]
  rfl

/-- A dummy item must leave room for its header in a 32-bit size. -/
def TagItem.Fits : TagItem → Prop
  | starDMY t => 8 + t.length.toNat < 2 ^ 32
  | _ => True

theorem TagItem.fits_of_length_value (t : TagItem) (h : t.value.length < 2 ^ 29) : t.Fits := by
  cases t with
  | starDMY t =>
    rw [value, List.length_replicate] at h
    exact Nat.lt_of_lt_of_le (Nat.add_lt_add_left h 8) (by norm_num)
  | _ => trivial

/-- An item writes the tag of its name and value, unless its check fails. -/
theorem TagItem.assemble_eq (t : TagItem) (h : t.Fits) :
    t.assemble.1 = t.check.map fun _ => tag t.name t.value := by
  cases t with
  | starPTR t => exact congrArg Except.ok t.assemble_eq
  | dsti t => exact congrArg Except.ok t.assemble_eq
  | ssm t => exact t.assemble_eq
  | starDMY t => exact congrArg Except.ok (t.assemble_eq h)
  | odrVersion t => exact congrArg Except.ok t.assemble_eq
  | odrAudioLevels t => exact congrArg Except.ok t.assemble_eq

end SourceCompanion.Edi
