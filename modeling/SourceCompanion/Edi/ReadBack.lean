import SourceCompanion.Edi.CrcSerial

/-! # Reading AF packets back

Over every run of the packetiser, the packets carry consecutive sequence numbers and their
payloads split into the tags of the items. The limits are those of the 32-bit length fields and
of the number of bytes that the checksum takes.
-/

namespace SourceCompanion.Edi

open Bytes Tlv

namespace AFPacketiser

/-- The number of packets made before a call. A call that throws makes none. -/
def packetsBefore (calls : List TagPacket) (n : ℕ) : ℕ :=
  (Mealy.outputs assemble {} (calls.take n)).countP fun answer => answer.1.isOk

/-- The packet of a call is read back: the number of packets before it as its sequence number,
its length and its checksum, and the names and values of the items. -/
def ReadBack (calls : List TagPacket) (n : ℕ) (tagPacket : TagPacket) : Prop :=
  ∃ packet payload,
    (Mealy.outputs assemble {} calls)[n]?.map Prod.fst = some (.ok packet) ∧
      readAFPacket packet = some (packetsBefore calls n % 2 ^ 16, payload) ∧
      splitTags payload = some tagPacket.contents

theorem seq_assemble (s : AFPacketiser) (t : TagPacket) :
    (s.assemble t).2.seq.toNat =
      (s.seq.toNat + if (s.assemble t).1.1.isOk then 1 else 0) % 2 ^ 16 := by
  have hlt := s.seq.toNat_lt
  rcases hassemble : t.assemble with ⟨answer, t'⟩
  cases answer with
  | error e =>
    rw [assemble_of_error hassemble]
    exact (Nat.mod_eq_of_lt hlt).symm
  | ok payload =>
    rw [assemble_of_ok hassemble]
    exact UInt16.toNat_add s.seq 1

theorem seq_state (s : AFPacketiser) (calls : List TagPacket) :
    (Mealy.state assemble s calls).seq.toNat =
      (s.seq.toNat + (Mealy.outputs assemble s calls).countP fun answer => answer.1.isOk)
        % 2 ^ 16 := by
  induction calls generalizing s with
  | nil => exact (Nat.mod_eq_of_lt s.seq.toNat_lt).symm
  | cons t calls ih =>
    rw [Mealy.state_cons, ih, seq_assemble, Mealy.outputs_cons, List.countP_cons,
      Nat.mod_add_mod, Nat.add_assoc, Nat.add_comm (List.countP _ _)]

variable {calls : List TagPacket} {n : ℕ} {t : TagPacket}

theorem outputs_of_ok (ht : calls[n]? = some t) {payload : List UInt8}
    (h : t.assemble.1 = .ok payload) :
    ∃ seq : UInt16, seq.toNat = packetsBefore calls n % 2 ^ 16 ∧
      (Mealy.outputs assemble {} calls)[n]?.map Prod.fst = some (.ok (afPacket seq payload)) := by
  refine ⟨(Mealy.state assemble {} (calls.take n)).seq, ?_, ?_⟩
  · rw [seq_state, packetsBefore]
    exact congrArg (· % 2 ^ 16) (Nat.zero_add _)
  · have hassemble : t.assemble = (.ok payload, t.assemble.2) := Prod.ext h rfl
    rw [Mealy.outputs_getElem?, ht, Option.map_some, assemble_of_ok hassemble]
    rfl

theorem mem_contents {u : List UInt8 × List UInt8} (hu : u ∈ t.contents)
    (hitems : ∀ v ∈ t.tagItems, v.value.length < 2 ^ 29)
    (halign : t.alignment.toNat < 2 ^ 29 + 8) : u.1.length = 4 ∧ u.2.length < 2 ^ 29 := by
  rcases List.mem_append.mp hu with hu | hu
  · obtain ⟨v, hv, rfl⟩ := List.mem_map.mp hu
    exact ⟨v.length_name, hitems v hv⟩
  · split_ifs at hu with hgt
    · obtain rfl := List.mem_singleton.mp hu
      refine ⟨rfl, ?_⟩
      rw [List.length_replicate, UInt32.toNat_sub_of_le _ _ (UInt32.le_of_lt hgt)]
      exact Nat.sub_lt_left_of_lt_add (UInt32.lt_iff_toNat_lt.mp hgt).le (by simpa using halign)
    · simp at hu

/-- Every packet of items that pass their checks and fit their length fields is read back. -/
theorem packets_readBack (calls : List TagPacket) (n : ℕ) (t : TagPacket)
    (ht : calls[n]? = some t) (hraw : t.rawTagpacket = [])
    (hitems : ∀ u ∈ t.tagItems, u.check = .ok () ∧ u.value.length < 2 ^ 29)
    (halign : t.alignment.toNat < 2 ^ 29 + 8)
    (hsize : ∀ payload, t.assemble.1 = .ok payload → payload.length + 10 < 2 ^ 32) :
    ReadBack calls n t := by
  obtain ⟨zeros, hzeros, hassemble⟩ := TagPacket.assemble_eq hraw fun u hu =>
    ⟨u.fits_of_length_value (hitems u hu).2, (hitems u hu).1⟩
  have hpayload := congrArg Prod.fst hassemble
  obtain ⟨seq, hseq, houtput⟩ := outputs_of_ok ht hpayload
  have hread : readAFPacket (afPacket seq _) = _ := readAFPacket_afPacket (hsize _ hpayload)
  rw [hseq] at hread
  exact ⟨_, _, houtput, hread, splitTags_flatMap
    (fun u hu => mem_contents hu (fun v hv => (hitems v hv).2) halign) hzeros⟩

def smallPacket (alignment : UInt32) : TagPacket where
  tagItems := [.starPTR .sti, .dsti { atstf := true },
    .ssm { istdData := [1, 2, 3, 4, 5] }, .odrAudioLevels ⟨-2, 300⟩, .odrVersion ⟨[118, 49], 7⟩]
  alignment

theorem packets_readBack_second :
    [smallPacket 0, smallPacket 8][1]? = some (smallPacket 8) ∧
      ReadBack [smallPacket 0, smallPacket 8] 1 (smallPacket 8) :=
  ⟨rfl, packets_readBack [smallPacket 0, smallPacket 8] 1 (smallPacket 8) rfl rfl (by decide)
    (by decide) fun payload h => by
      obtain rfl := Except.ok.inj h
      decide +kernel⟩

theorem ReadBack.splitTags (h : ReadBack [t] 0 t) (hraw : t.rawTagpacket = [])
    (hitems : ∀ u ∈ t.tagItems, u.check = .ok () ∧ u.value.length < 2 ^ 29) :
    ∃ zeros : List UInt8, (t.contents.flatMap (fun u => tag u.1 u.2) ++ zeros).length < 2 ^ 32 ∧
      Tlv.splitTags (t.contents.flatMap (fun u => tag u.1 u.2) ++ zeros) = some t.contents := by
  obtain ⟨packet, payload, houtput, hread, hsplit⟩ := h
  obtain ⟨zeros, -, hassemble⟩ := TagPacket.assemble_eq hraw fun u hu =>
    ⟨u.fits_of_length_value (hitems u hu).2, (hitems u hu).1⟩
  obtain ⟨seq, -, hpacket⟩ := outputs_of_ok (show [t][0]? = some t from rfl)
    (congrArg Prod.fst hassemble)
  obtain rfl := Except.ok.inj (Option.some.inj (houtput.symm.trans hpacket))
  obtain ⟨hsize, -, rfl⟩ := of_readAFPacket hread
  exact ⟨zeros, hsize, hsplit⟩

theorem not_readBack_of_alignment {alignment : UInt32} (h : 2 ^ 29 + 8 ≤ alignment.toNat) :
    ¬ ReadBack [{ alignment }] 0 { alignment } := by
  have hgt : 8 < alignment := UInt32.lt_iff_toNat_lt.mpr (Nat.lt_of_lt_of_le (by decide) h)
  have hcontents : ({ alignment } : TagPacket).contents =
      [(ascii ['*', 'd', 'm', 'y'], List.replicate (alignment - 8).toNat 0)] := by
    simp [TagPacket.contents, hgt]
  intro hread
  obtain ⟨zeros, -, hsplit⟩ := hread.splitTags rfl (by simp)
  rw [hcontents, List.flatMap_singleton] at hsplit
  refine not_splitTags_of_long rfl ?_ [] hsplit
  rw [List.length_replicate, UInt32.toNat_sub_of_le _ _ (UInt32.le_of_lt hgt)]
  exact Nat.le_sub_of_add_le h

theorem not_readBack_of_nine {t : TagODRVersion} (h : t.version.length = 2 ^ 29 - 5) :
    ¬ ReadBack [{ tagItems := List.replicate 9 (.odrVersion t), alignment := 0 }] 0
      { tagItems := List.replicate 9 (.odrVersion t), alignment := 0 } := by
  have hvalue : (TagItem.odrVersion t).value.length = 2 ^ 29 - 1 := by
    rw [TagItem.value, List.length_append, h, length_be32]
    rfl
  intro hread
  obtain ⟨zeros, hsize, -⟩ := hread.splitTags rfl fun u hu => by
    obtain rfl := List.eq_of_mem_replicate hu
    exact ⟨rfl, by rw [hvalue]; norm_num⟩
  have hlength : ∀ n, ((List.replicate n (TagItem.odrVersion t)).flatMap
      fun u => tag u.name u.value).length = n * (8 + (2 ^ 29 - 1)) := fun n => by
    simp [List.length_flatMap, hvalue]
  rw [List.length_append, TagPacket.contents, List.flatMap_append, List.length_append,
    List.flatMap_map, hlength] at hsize
  omega

theorem not_read_both {seq : UInt16} {payload : List UInt8} {x y : UInt8} (hne : x ≠ y)
    (hlt : payload.length + 1 < 2 ^ 32) (hge : 2 ^ 32 ≤ payload.length + 11)
    (hx : readAFPacket (afPacket seq (payload ++ [x])) ≠ none) :
    readAFPacket (afPacket seq (payload ++ [y])) = none := by
  have hlength (z : UInt8) : (payload ++ [z]).length = payload.length + 1 := List.length_append
  have hcovered (z : UInt8) : (afHeader seq (payload.length + 1) ++ (payload ++ [z])).take
      ((10 + (payload.length + 1)) % 2 ^ 32) = (afHeader seq (payload.length + 1)).take
        ((10 + (payload.length + 1)) % 2 ^ 32) :=
    List.take_append_of_le_length (by rw [length_afHeader]; omega)
  rw [readAFPacket_of_lt (by rwa [hlength]), hlength, hcovered] at hx ⊢
  refine if_neg fun hy => hx (if_neg fun hx => hne ?_)
  have hsame := hx.symm.trans hy
  rw [checksum, checksum, UInt16.xor_left_inj, ← List.append_assoc, ← List.append_assoc,
    crc16_append, crc16_append _ _ [y]] at hsame
  exact crc16_byte_injective _ hsame

/-- Eight version items whose tags fit the length field of the packet together, but not with its
header. -/
def eightVersions (version : List UInt8) (uptime : UInt32) : TagPacket where
  tagItems := List.replicate 7 (.odrVersion ⟨version, 0⟩) ++ [.odrVersion ⟨version, uptime⟩]
  alignment := 0

/-- Two packets that differ in their last byte only are not both read back. -/
theorem not_readBack_of_eight {version : List UInt8} (h : version.length = 2 ^ 29 - 13) :
    ¬ (ReadBack [eightVersions version 0] 0 (eightVersions version 0) ∧
      ReadBack [eightVersions version 1] 0 (eightVersions version 1)) := by
  have hvalue (uptime : UInt32) :
      (TagItem.odrVersion ⟨version, uptime⟩).value.length = 2 ^ 29 - 9 := by
    rw [TagItem.value, List.length_append, h, length_be32]
    rfl
  have hassemble (uptime : UInt32) : (eightVersions version uptime).assemble.1 = .ok
      ((eightVersions version uptime).tagItems.flatMap fun u => tag u.name u.value) := by
    refine TagPacket.assemble_of_unaligned rfl rfl fun u hu => ?_
    have hu' : u = .odrVersion ⟨version, 0⟩ ∨ u = .odrVersion ⟨version, uptime⟩ := by
      simpa [eightVersions] using hu
    rcases hu' with rfl | rfl <;>
      exact ⟨TagItem.fits_of_length_value _ (by rw [hvalue]; norm_num), rfl⟩
  -- The last tag ends with the uptime, most significant byte first.
  have hlast (uptime : UInt32) : tag (TagItem.odrVersion ⟨version, uptime⟩).name
      (TagItem.odrVersion ⟨version, uptime⟩).value = ascii ['O', 'D', 'R', 'v'] ++
        be32 (UInt32.ofNat ((2 ^ 29 - 9) * 8)) ++ (version ++ be32 uptime) := by
    rw [tag, hvalue]
    rfl
  obtain ⟨payload, hlength, hzero, hone⟩ : ∃ payload : List UInt8, payload.length + 9 = 2 ^ 32 ∧
      (eightVersions version 0).assemble.1 = .ok (payload ++ [0]) ∧
      (eightVersions version 1).assemble.1 = .ok (payload ++ [1]) := by
    refine ⟨((List.replicate 7 (TagItem.odrVersion ⟨version, 0⟩)).flatMap fun u =>
      tag u.name u.value) ++ (ascii ['O', 'D', 'R', 'v'] ++
        be32 (UInt32.ofNat ((2 ^ 29 - 9) * 8)) ++ (version ++ [0, 0, 0])), ?_, ?_, ?_⟩
    · simp [hvalue, h]
    · have hbytes : be32 0 = [0, 0, 0] ++ [0] := rfl
      rw [hassemble, eightVersions, List.flatMap_append, List.flatMap_singleton, hlast, hbytes]
      simp
    · have hbytes : be32 1 = [0, 0, 0] ++ [1] := rfl
      rw [hassemble, eightVersions, List.flatMap_append, List.flatMap_singleton, hlast, hbytes]
      simp
  rintro ⟨⟨packet, _, houtput, hread, -⟩, ⟨packet', _, houtput', hread', -⟩⟩
  obtain ⟨seq, hseq, hpacket⟩ := outputs_of_ok (show [_][0]? = some _ from rfl) hzero
  obtain ⟨seq', hseq', hpacket'⟩ := outputs_of_ok (show [_][0]? = some _ from rfl) hone
  obtain rfl := Except.ok.inj (Option.some.inj (houtput.symm.trans hpacket))
  obtain rfl := Except.ok.inj (Option.some.inj (houtput'.symm.trans hpacket'))
  obtain rfl : seq = seq' := UInt16.toNat_inj.mp (hseq.trans hseq'.symm)
  have hnone : readAFPacket (afPacket seq (payload ++ [1])) = none :=
    not_read_both (by decide : (0 : UInt8) ≠ 1) (by omega) (by omega)
      (hread ▸ Option.some_ne_none _)
  cases hnone.symm.trans hread'

/-- Without the limits the packets are not all read back. -/
theorem long_packets_not_readBack :
    ¬ ReadBack [{ alignment := 536870920 }] 0 { alignment := 536870920 } ∧
      ¬ ReadBack
        [{ tagItems := List.replicate 9 (.odrVersion ⟨List.replicate 536870907 0, 0⟩),
           alignment := 0 }] 0
        { tagItems := List.replicate 9 (.odrVersion ⟨List.replicate 536870907 0, 0⟩),
          alignment := 0 } ∧
      ¬ (ReadBack [eightVersions (List.replicate 536870899 0) 0] 0
          (eightVersions (List.replicate 536870899 0) 0) ∧
        ReadBack [eightVersions (List.replicate 536870899 0) 1] 0
          (eightVersions (List.replicate 536870899 0) 1)) :=
  ⟨not_readBack_of_alignment (by decide), not_readBack_of_nine List.length_replicate,
    not_readBack_of_eight List.length_replicate⟩

end AFPacketiser

end SourceCompanion.Edi
