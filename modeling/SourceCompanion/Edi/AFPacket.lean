import SourceCompanion.Edi.Crc
import SourceCompanion.Edi.TagItems
import SourceCompanion.Run.Mealy

/-! # Tag packets and AF packets

The items of a tag packet are written one after the other, with padding behind them, and
become the payload of an AF packet with a sequence number and a checksum. A reader that knows
the format only gets the sequence number and the tags back.
-/

namespace SourceCompanion.Edi

open Bytes Tlv

/-! ## Tag packets -/

/-- A list of items or, instead of it, the payload itself. -/
structure TagPacket where
  tagItems : List TagItem := []
  rawTagpacket : List UInt8 := []
  alignment : UInt32

namespace TagPacket

/-- The bytes of the items, up to the first that throws, and the items afterwards. -/
def assembleItems : List TagItem → Except String (List UInt8) × List TagItem
  | [] => (.ok [], [])
  | t :: tagItems =>
    match t.assemble with
    | (.error e, t) => (.error e, t :: tagItems)
    | (.ok tagData, t) =>
      let (packet, tagItems) := assembleItems tagItems
      (packet.map (tagData ++ ·), t :: tagItems)

def pad (alignment : UInt32) (packet : List UInt8) : List UInt8 :=
  if alignment = 0 then packet
  else if alignment = 8 then packet ++ List.replicate ((8 - packet.length % 8) % 8) 0
  else if alignment > 8 then packet ++ (TagStarDMY.mk (alignment - 8)).assemble
  else
    -- An invalid alignment is only reported.
    packet

def assemble (t : TagPacket) : Except String (List UInt8) × TagPacket :=
  if t.rawTagpacket ≠ [] ∧ t.tagItems ≠ [] then
    (.error "TagPacket: both raw and items used!", t)
  else if t.rawTagpacket ≠ [] then (.ok t.rawTagpacket, t)
  else
    let (packet, tagItems) := assembleItems t.tagItems
    (packet.map (pad t.alignment), { t with tagItems })

/-- What a packet of items is to carry: their names and values, and a dummy tag for an
alignment beyond eight. -/
def contents (t : TagPacket) : List (List UInt8 × List UInt8) :=
  t.tagItems.map (fun t => (t.name, t.value)) ++
    if t.alignment > 8 then
      [(ascii ['*', 'd', 'm', 'y'], List.replicate (t.alignment - 8).toNat 0)]
    else []

end TagPacket

/-! ## AF packets -/

structure AFPacketiser where
  seq : UInt16 := 0
  deriving DecidableEq

/-- The header for a payload of some length. The payload type is a tag packet and the checksum is
always there. -/
def afHeader (seq : UInt16) (taglength : ℕ) : List UInt8 :=
  ascii ['A', 'F'] ++ be32 (UInt32.ofNat taglength) ++ be16 seq ++ [0x80 ||| 0x10] ++ ascii ['T']

def afPacket (seq : UInt16) (payload : List UInt8) : List UInt8 :=
  let packet := afHeader seq payload.length ++ payload
  -- The number of bytes that the checksum covers is an `unsigned`.
  packet ++ be16 (checksum (packet.take (UInt32.ofNat packet.length).toNat))

/-- The packet, or what the items throw, together with the items afterwards. -/
def AFPacketiser.assemble (s : AFPacketiser) (tagPacket : TagPacket) :
    (Except String (List UInt8) × TagPacket) × AFPacketiser :=
  match tagPacket.assemble with
  | (.error e, tagPacket) => ((.error e, tagPacket), s)
  | (.ok payload, tagPacket) =>
    ((.ok (afPacket s.seq payload), tagPacket), { seq := s.seq + 1 })

/-- A reader of AF packets: the sequence number and the payload of a packet whose length is
right and whose checksum verifies. -/
def readAFPacket (packet : List UInt8) : Option (ℕ × List UInt8) :=
  let taglength := ofBE (slice packet 2 4)
  if packet.take 2 = ascii ['A', 'F'] ∧ packet.length = 10 + taglength + 2 ∧
      ofBE (slice packet (10 + taglength) 2) =
        (checksum (packet.take (10 + taglength))).toNat then
    some (ofBE (slice packet 6 2), slice packet 10 taglength)
  else none

def tagValue (name packet : List UInt8) : Option (List UInt8) := findTag name (packet.drop 10)

/-! ## What is written -/

namespace TagPacket

variable {t : TagPacket} {tagItems : List TagItem}

theorem assembleItems_eq (h : ∀ t ∈ tagItems, t.Fits ∧ t.check = .ok ()) :
    assembleItems tagItems =
      (.ok (tagItems.flatMap fun t => tag t.name t.value), tagItems.map fun t => t.assemble.2) := by
  induction tagItems with
  | nil => rfl
  | cons t tagItems ih =>
    obtain ⟨hfits, hcheck⟩ := h t List.mem_cons_self
    have ht : t.assemble = (.ok (tag t.name t.value), t.assemble.2) :=
      Prod.ext (by rw [t.assemble_eq hfits, hcheck]; rfl) rfl
    rw [assembleItems, ht, ih fun t ht => h t (List.mem_cons_of_mem _ ht)]
    rfl

theorem pad_eq (t : TagPacket) (packet : List UInt8) :
    ∃ zeros : List UInt8, zeros.length < 8 ∧
      pad t.alignment packet =
        packet ++ (({ t with tagItems := [] } : TagPacket).contents.flatMap
          fun u => tag u.1 u.2) ++ zeros := by
  have hnone : ¬ t.alignment > 8 →
      (({ t with tagItems := [] } : TagPacket).contents.flatMap fun u => tag u.1 u.2) = [] := by
    intro h
    simp [contents, h]
  unfold pad
  split_ifs with h0 h8 hgt
  · exact ⟨[], by simp, by simp [hnone (by rw [h0]; decide)]⟩
  · refine ⟨List.replicate ((8 - packet.length % 8) % 8) 0, ?_, ?_⟩
    · rw [List.length_replicate]
      exact Nat.mod_lt _ (by omega)
    · simp [hnone (by rw [h8]; decide)]
  · refine ⟨[], by simp, ?_⟩
    have hlt := t.alignment.toNat_lt
    have hlength : (t.alignment - 8).toNat = t.alignment.toNat - 8 :=
      UInt32.toNat_sub_of_le _ _ (UInt32.le_of_lt hgt)
    rw [TagStarDMY.assemble_eq _ (by dsimp only; rw [hlength]; omega)]
    simp [contents, hgt, TagItem.name, TagItem.value]
  · exact ⟨[], by simp, by simp [hnone hgt]⟩

theorem assemble_eq (hraw : t.rawTagpacket = [])
    (h : ∀ u ∈ t.tagItems, u.Fits ∧ u.check = .ok ()) :
    ∃ zeros : List UInt8, zeros.length < 8 ∧
      t.assemble = (.ok (t.contents.flatMap (fun u => tag u.1 u.2) ++ zeros),
        { t with tagItems := t.tagItems.map fun u => u.assemble.2 }) := by
  obtain ⟨zeros, hzeros, hpad⟩ := t.pad_eq (t.tagItems.flatMap fun u => tag u.name u.value)
  refine ⟨zeros, hzeros, ?_⟩
  rw [assemble, if_neg (by simp [hraw]), if_neg (by simp [hraw]), assembleItems_eq h]
  dsimp only [Except.map]
  rw [hpad]
  simp [contents, List.flatMap_append, List.flatMap_map]

theorem assemble_of_unaligned (hraw : t.rawTagpacket = []) (halign : t.alignment = 0)
    (h : ∀ u ∈ t.tagItems, u.Fits ∧ u.check = .ok ()) :
    t.assemble.1 = .ok (t.tagItems.flatMap fun u => tag u.name u.value) := by
  rw [assemble, if_neg (by simp [hraw]), if_neg (by simp [hraw]), assembleItems_eq h]
  simp [pad, halign, Except.map]

end TagPacket

def TagPacket.dsti? (t : TagPacket) : Option TagDSTI :=
  t.tagItems.findSome? fun item =>
    match item with
    | .dsti t => some t
    | _ => none

theorem AFPacketiser.assemble_of_ok {s : AFPacketiser} {t t' : TagPacket} {payload : List UInt8}
    (h : t.assemble = (.ok payload, t')) :
    s.assemble t = ((.ok (afPacket s.seq payload), t'), { seq := s.seq + 1 }) := by
  rw [assemble, h]

theorem AFPacketiser.assemble_of_error {s : AFPacketiser} {t t' : TagPacket} {e : String}
    (h : t.assemble = (.error e, t')) : s.assemble t = ((.error e, t'), s) := by
  rw [assemble, h]

/-! ## What is read -/

section Read

variable {seq : UInt16} {payload : List UInt8}

@[simp] theorem length_afHeader (seq : UInt16) (taglength : ℕ) :
    (afHeader seq taglength).length = 10 := rfl

@[simp] theorem length_afPacket : (afPacket seq payload).length = 10 + payload.length + 2 := by
  simp [afPacket]
  omega

theorem afPacket_eq (seq : UInt16) (payload : List UInt8) :
    afPacket seq payload = (afHeader seq payload.length ++ payload) ++
      be16 (checksum ((afHeader seq payload.length ++ payload).take
        ((10 + payload.length) % 2 ^ 32))) := by
  rw [afPacket, UInt32.toNat_ofNat', List.length_append, length_afHeader]

theorem take_covered (seq : UInt16) (h : payload.length + 10 < 2 ^ 32) :
    (afHeader seq payload.length ++ payload).take ((10 + payload.length) % 2 ^ 32) =
      afHeader seq payload.length ++ payload := by
  rw [Nat.mod_eq_of_lt (by omega), List.take_of_length_le]
  rw [List.length_append, length_afHeader]

/-- A packet whose length fits its field is read when the checksum of what was covered is that of
the whole. -/
theorem readAFPacket_of_lt (h : payload.length < 2 ^ 32) :
    readAFPacket (afPacket seq payload) =
      if checksum ((afHeader seq payload.length ++ payload).take
          ((10 + payload.length) % 2 ^ 32)) = checksum (afHeader seq payload.length ++ payload) then
        some (seq.toNat, payload)
      else none := by
  have hsync : (afPacket seq payload).take 2 = ascii ['A', 'F'] := rfl
  have hlen : ofBE (slice (afPacket seq payload) 2 4) = payload.length := by
    have : slice (afPacket seq payload) 2 4 = be32 (UInt32.ofNat payload.length) := rfl
    rw [this, ofBE_be32, UInt32.toNat_ofNat_of_lt' h]
  have hseq : ofBE (slice (afPacket seq payload) 6 2) = seq.toNat := by
    have : slice (afPacket seq payload) 6 2 = be16 seq := rfl
    rw [this, ofBE_be16]
  have hheader := length_afHeader seq payload.length
  have hpacket := afPacket_eq seq payload
  generalize checksum ((afHeader seq payload.length ++ payload).take _) = crc at hpacket ⊢
  generalize afHeader seq payload.length = header at hheader hpacket ⊢
  have hlength : (header ++ payload).length = 10 + payload.length := by
    rw [List.length_append, hheader]
  have htake : (afPacket seq payload).take (10 + payload.length) = header ++ payload := by
    rw [hpacket, List.take_left' hlength]
  have hcrc : slice (afPacket seq payload) (10 + payload.length) 2 = be16 crc := by
    rw [hpacket, slice_append_right hlength.le, hlength, Nat.sub_self,
      slice_self (length_be16 _)]
  have hpayload : slice (afPacket seq payload) 10 payload.length = payload := by
    rw [hpacket, slice_append_left (by rw [hlength]), slice_append_right hheader.le, hheader,
      Nat.sub_self, slice_self rfl]
  simp only [readAFPacket, hlen, htake, hcrc, ofBE_be16, length_afPacket, hseq, hpayload, hsync,
    true_and, UInt16.toNat_inj]

theorem readAFPacket_afPacket (h : payload.length + 10 < 2 ^ 32) :
    readAFPacket (afPacket seq payload) = some (seq.toNat, payload) := by
  rw [readAFPacket_of_lt (by omega), take_covered seq h, if_pos rfl]

theorem readAFPacket_of_long (h : 2 ^ 32 ≤ payload.length) :
    readAFPacket (afPacket seq payload) = none := by
  have hlen : ofBE (slice (afPacket seq payload) 2 4) < 2 ^ 32 := by
    have : slice (afPacket seq payload) 2 4 = be32 (UInt32.ofNat payload.length) := rfl
    rw [this, ofBE_be32]
    exact UInt32.toNat_lt _
  simp only [readAFPacket, length_afPacket]
  exact if_neg fun hread => by omega

theorem of_readAFPacket {n : ℕ} {bytes : List UInt8}
    (h : readAFPacket (afPacket seq payload) = some (n, bytes)) :
    payload.length < 2 ^ 32 ∧ n = seq.toNat ∧ bytes = payload := by
  rcases Nat.lt_or_ge payload.length (2 ^ 32) with hlt | hge
  · rw [readAFPacket_of_lt hlt] at h
    split at h
    · cases h
      exact ⟨hlt, rfl, rfl⟩
    · cases h
  · rw [readAFPacket_of_long hge] at h
    cases h

theorem tagValue_afPacket (seq : UInt16) (payload : List UInt8) :
    ∃ crc : List UInt8,
      ∀ name, tagValue name (afPacket seq payload) = findTag name (payload ++ crc) := by
  obtain ⟨crc, hpacket⟩ : ∃ crc : List UInt8,
      afPacket seq payload = afHeader seq payload.length ++ (payload ++ crc) :=
    ⟨_, List.append_assoc ..⟩
  exact ⟨crc, fun name =>
    congrArg (findTag name) (by rw [hpacket, List.drop_left' (length_afHeader ..)])⟩

end Read

end SourceCompanion.Edi
