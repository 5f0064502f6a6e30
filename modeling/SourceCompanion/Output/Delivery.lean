import SourceCompanion.Edi.Packets
import SourceCompanion.Edi.Recovery
import SourceCompanion.Edi.WrongBits
import SourceCompanion.Output.SendLoop
import SourceCompanion.Socket.SendStream

/-! # Delivery

The main loop sends a superframe as five AF packets. Over UDP the protection turns each of them
into fragments, and the network loses, repeats and reorders these. A receiver with the decoder
gets every superframe back, as long as no packet loses more fragments than it is protected
against. Over TCP the packets follow each other in a stream that may break off anywhere.
-/

namespace SourceCompanion.Output

open Bytes Tlv Edi Fec Interleave

/-- The payload of the packet with a sequence number, from the fragments that arrived. -/
def receiveBlock (rs : Rs) (pseq : ℕ) (stream : List (List UInt8)) : Option (List UInt8) :=
  (restore rs pseq stream).bind fun afPacket =>
    (tagValue EDI.ssName afPacket).map (List.drop 3)

def receive (rs : Rs) (k : ℕ) (stream : List (List UInt8)) : Option (List UInt8) :=
  ((List.range 5).mapM fun i => receiveBlock rs (5 * k + i) stream).map List.flatten

/-! ## The packets of a run -/

theorem getElem?_flatten {α : Type*} {w : ℕ} {lists : List (List α)}
    (hw : ∀ l ∈ lists, l.length = w) {k i : ℕ} {l : List α} (hk : lists[k]? = some l)
    (hi : i < w) : lists.flatten[w * k + i]? = l[i]? := by
  induction lists generalizing k with
  | nil => simp at hk
  | cons first lists ih =>
    obtain ⟨hfirst, hrest⟩ := List.forall_mem_cons.mp hw
    rw [List.flatten_cons]
    cases k with
    | zero =>
      obtain rfl : first = l := by simpa using hk
      rw [Nat.mul_zero, Nat.zero_add, List.getElem?_append_left (by omega)]
    | succ k =>
      rw [Nat.mul_succ, List.getElem?_append_right (by omega), hfirst,
        show w * k + w + i - w = w * k + i by omega]
      exact ih hrest hk

theorem mapM_of_some {α β : Type*} {f : α → Option β} {g : α → β} {l : List α}
    (h : ∀ a ∈ l, f a = some (g a)) : l.mapM f = some (l.map g) := by
  induction l with
  | nil => rfl
  | cons a l ih =>
    obtain ⟨ha, hl⟩ := List.forall_mem_cons.mp h
    rw [List.mapM_cons, ha, ih hl]
    rfl

namespace SendLoop

variable {c : Config} {turns : List Turn}

theorem packets_of_carries {sent : List Packets}
    (h : List.Forall₂ (fun t packets => CarriesSuperframe t.outbuf packets) turns sent) :
    (∀ packets ∈ sent, packets.length = 5) ∧
      ∀ (k : ℕ) (t : Turn), turns[k]? = some t → ∃ packets, sent[k]? = some packets ∧
        CarriesSuperframe t.outbuf packets := by
  induction h with
  | nil => exact ⟨by simp, by simp⟩
  | @cons t packets turns sent hfirst _ ih =>
    refine ⟨List.forall_mem_cons.mpr ⟨hfirst.length_eq.symm, ih.1⟩, fun k t' hk => ?_⟩
    cases k with
    | zero =>
      obtain rfl : t = t' := by simpa using hk
      exact ⟨packets, rfl, hfirst⟩
    | succ k => exact ih.2 k t' hk

theorem flatten_blocks (outbuf : Outbuf) :
    ((List.range 5).map fun i =>
      slice outbuf.data (i * outbuf.data.length / 5) (outbuf.data.length / 5)).flatten =
        outbuf.data := by
  have hcover : outbuf.data.length ≤ 5 * (outbuf.data.length / 5) := by
    have := outbuf.dvd
    omega
  refine Eq.trans ?_ (flatten_pieces_of_le hcover)
  refine congrArg List.flatten (List.map_congr_left fun i _ => ?_)
  rw [slice, Nat.mul_div_assoc i outbuf.dvd]

theorem receive_eq {rs : Rs} {stream : List (List UInt8)} {sent : List Packets}
    (hlength : ∀ packets ∈ sent, packets.length = 5)
    (hrestore : ∀ (n : ℕ) (packet : List UInt8), sent.flatten[n]? = some packet →
      restore rs n stream = some packet)
    {k : ℕ} {outbuf : Outbuf} {packets : Packets} (hk : sent[k]? = some packets)
    (hcarries : CarriesSuperframe outbuf packets) : receive rs k stream = some outbuf.data := by
  have hblock : ∀ i ∈ List.range 5, receiveBlock rs (5 * k + i) stream =
      some (slice outbuf.data (i * outbuf.data.length / 5) (outbuf.data.length / 5)) := by
    intro i hi
    have hi' : i < packets.length := by
      rw [← hcarries.length_eq]
      exact List.mem_range.mp hi
    have hpacket : sent.flatten[5 * k + i]? = some packets[i] := by
      rw [getElem?_flatten hlength hk (List.mem_range.mp hi), List.getElem?_eq_getElem hi']
    have hcarry := hcarries.get (List.mem_range.mp hi) hi'
    have hindex : [0, 1, 2, 3, 4].get ⟨i, List.mem_range.mp hi⟩ = i := by
      have hlt := List.mem_range.mp hi
      interval_cases i <;> rfl
    rw [hindex] at hcarry
    rw [receiveBlock, hrestore _ _ hpacket, Option.bind_some]
    exact hcarry.1
  rw [receive, mapM_of_some hblock, Option.map_some, flatten_blocks]

/-! ## The length of the packets -/

/-- The bytes that a packet may have besides its block: headers, other items and padding. -/
def overhead (edi : EDI) : ℕ := edi.odrVersionTag.length + edi.tagpacketAlignment.toNat + 100

theorem length_items (edi : EDI) (tagDSTI : TagDSTI) (buf : List UInt8) (sendsVersion : Bool) :
    ((edi.tagPacket tagDSTI buf sendsVersion).tagItems.flatMap fun t =>
      tag t.name t.value).length ≤ edi.odrVersionTag.length + 81 + buf.length := by
  have hptr : (TagItem.starPTR .sti).value.length = 8 := rfl
  have hdsti := tagDSTI.length_value_le
  have hssm : (TagItem.ssm { istdData := buf }).value.length = 3 + buf.length := by
    simp [TagItem.value]
  have hlevels : (TagItem.odrAudioLevels ⟨edi.audioLeft, edi.audioRight⟩).value.length = 4 := by
    simp [TagItem.value]
  have hversion : (TagItem.odrVersion ⟨edi.odrVersionTag,
      edi.numFramesSent * 1000 / 24⟩).value.length = edi.odrVersionTag.length + 4 := by
    simp [TagItem.value]
  cases sendsVersion <;>
  simp only [EDI.tagPacket, List.cons_append, List.nil_append, List.flatMap_cons, List.flatMap_nil,
    List.length_append, List.length_nil, length_tag, TagItem.length_name, if_true,
    Bool.false_eq_true, if_false] <;>
  omega

theorem length_contents (edi : EDI) (tagDSTI : TagDSTI) (buf : List UInt8) (sendsVersion : Bool) :
    ((edi.tagPacket tagDSTI buf sendsVersion).contents.flatMap fun u => tag u.1 u.2).length + 19 ≤
      overhead edi + buf.length := by
  have hitems := length_items edi tagDSTI buf sendsVersion
  have halignment : (edi.tagPacket tagDSTI buf sendsVersion).alignment = edi.tagpacketAlignment :=
    rfl
  rw [TagPacket.contents, List.flatMap_append, List.flatMap_map, List.length_append, overhead,
    halignment]
  dsimp only [Function.comp_def]
  split
  · rename_i hgt
    have hlength : (edi.tagpacketAlignment - 8).toNat = edi.tagpacketAlignment.toNat - 8 :=
      UInt32.toNat_sub_of_le _ _ (UInt32.le_of_lt hgt)
    have hlt : 8 < edi.tagpacketAlignment.toNat := UInt32.lt_iff_toNat_lt.mp hgt
    simp only [List.flatMap_cons, List.flatMap_nil, List.append_nil, length_tag,
      List.length_replicate, hlength, length_ascii, List.length_cons, List.length_nil]
    omega
  · simp only [List.flatMap_nil, List.length_nil]
    omega

/-- An AF packet of at most so many bytes. -/
def IsPacket (size : ℕ) (packet : List UInt8) : Prop :=
  ∃ seq payload, packet = afPacket seq payload ∧ packet.length ≤ size

theorem IsPacket.mono {size size' : ℕ} {packet : List UInt8} (h : IsPacket size packet)
    (hle : size ≤ size') : IsPacket size' packet := by
  obtain ⟨seq, payload, hpacket, hlength⟩ := h
  exact ⟨seq, payload, hpacket, hlength.trans hle⟩

theorem isPacket_writeFrame (edi : EDI) (buf : List UInt8) (env : Env) :
    overhead (edi.writeFrame buf env).2 = overhead edi ∧
      ∀ packet, (edi.writeFrame buf env).1 = .ok packet →
        IsPacket (overhead edi + buf.length) packet := by
  cases hoffset : env.taiOffset with
  | error e =>
    rw [EDI.writeFrame, hoffset]
    exact ⟨rfl, fun packet h => by cases h⟩
  | ok taiUtcOffset =>
    obtain ⟨zeros, hzeros, hassemble⟩ := TagPacket.assemble_eq
      (t := edi.tagPacket (edi.dstiToSend taiUtcOffset) buf (edi.Due env)) rfl
      (edi.tagPacket_checks _ buf _)
    have hpacketiser := AFPacketiser.assemble_of_ok (s := edi.afPacketiser) hassemble
    have hlength := length_contents edi (edi.dstiToSend taiUtcOffset) buf (edi.Due env)
    have hdue : decide (edi.timeLastVersionSent + 10 * second < env.steady) =
        decide (edi.Due env) := rfl
    rw [EDI.writeFrame, hoffset]
    dsimp only
    rw [hdue, hpacketiser]
    cases env.transport with
    | error e => exact ⟨rfl, fun packet h => by cases h⟩
    | ok u =>
      refine ⟨rfl, fun packet h => ⟨_, _, (Except.ok.inj h).symm, ?_⟩⟩
      rw [← Except.ok.inj h, length_afPacket, List.length_append]
      omega

theorem isPacket_writeBlocks (data : List UInt8) (blocksize : ℕ) (env : ℕ → Env) (is : List ℕ)
    (success : Bool) (edi : EDI) :
    overhead (writeBlocks data blocksize env is success edi).2 = overhead edi ∧
      ∀ packet ∈ (writeBlocks data blocksize env is success edi).1.2,
        IsPacket (overhead edi + blocksize) packet := by
  induction is generalizing success edi with
  | nil => exact ⟨rfl, by simp [writeBlocks]⟩
  | cons i is ih =>
    obtain ⟨hkeeps, hpackets⟩ :=
      isPacket_writeFrame edi (slice data (i * blocksize) blocksize) (env i)
    have hslice : (slice data (i * blocksize) blocksize).length ≤ blocksize :=
      List.length_take_le _ _
    rw [writeBlocks]
    generalize edi.writeFrame (slice data (i * blocksize) blocksize) (env i) = answer
      at hkeeps hpackets ⊢
    rcases answer with ⟨_ | packet, edi'⟩
    · exact ⟨hkeeps, by simp⟩
    · have hpacket := (hpackets packet rfl).mono (Nat.add_le_add_left hslice _)
      dsimp only at hkeeps ⊢
      split
      · exact ⟨hkeeps, List.forall_mem_singleton.mpr hpacket⟩
      · obtain ⟨hkeeps', hpackets'⟩ := ih (success && true) edi'
        rw [hkeeps] at hkeeps' hpackets'
        exact ⟨hkeeps', List.forall_mem_cons.mpr ⟨hpacket, hpackets'⟩⟩

/-- The packets of a turn are not much longer than a fifth of its superframe. -/
theorem isPacket_turn (c : Config) (s : SendLoop) (t : Turn) :
    overhead (turn c s t).2.edi = overhead s.edi ∧
      ∀ packet ∈ (turn c s t).1.1, IsPacket (overhead s.edi + 576) packet := by
  have hedi : overhead (if c.ediOutputUris then s.edi.setTist c.tistEnabled c.tistDelayMs t.ts
      else (.ok (), s.edi)).2 = overhead s.edi ∧
      (if c.ediOutputUris then s.edi.setTist c.tistEnabled c.tistDelayMs t.ts
      else (.ok (), s.edi)).1 = .ok () := by
    have htist := s.edi.setTist_eq ⟨c.tistEnabled, c.tistDelayMs, t.ts⟩
    dsimp only at htist
    split
    · rw [htist]
      exact ⟨rfl, rfl⟩
    · exact ⟨rfl, rfl⟩
  rw [turn]
  generalize (if c.ediOutputUris then s.edi.setTist c.tistEnabled c.tistDelayMs t.ts
    else (.ok (), s.edi)) = set at hedi ⊢
  obtain ⟨answer, edi⟩ := set
  obtain ⟨hkeeps, rfl⟩ := hedi
  dsimp only at hkeeps ⊢
  have hle : t.outbuf.data.length / 5 ≤ 576 := by
    have := t.outbuf.le
    omega
  have hwrite (success : Bool) : overhead (writeEdi c t success edi).2 = overhead edi ∧
      ∀ packet ∈ (writeEdi c t success edi).1.2, IsPacket (overhead edi + 576) packet := by
    rw [writeEdi]
    split
    · dsimp only
      split
      · exact ⟨rfl, by simp⟩
      · obtain ⟨hsame, hpackets⟩ := isPacket_writeBlocks t.outbuf.data
          (t.outbuf.data.length / 5) t.env [0, 1, 2, 3, 4] success
          (edi.updateAudioLevels t.peakLeft t.peakRight)
        exact ⟨hsame, fun packet h => (hpackets packet h).mono (Nat.add_le_add_left hle _)⟩
    · exact ⟨rfl, by simp⟩
  rw [hkeeps] at hwrite
  obtain ⟨hsame, hpackets⟩ := hwrite (!c.zmqOutput || t.zmqSent)
  generalize writeEdi c t (!c.zmqOutput || t.zmqSent) edi = written at hsame hpackets ⊢
  rcases written with ⟨⟨_ | success, packets⟩, edi'⟩
  · exact ⟨hsame, hpackets⟩
  · dsimp only
    split
    · split <;> exact ⟨hsame, hpackets⟩
    · split <;> exact ⟨hsame, hpackets⟩

theorem isPacket_run (c : Config) (s : SendLoop) (turns : List Turn) :
    ∀ packet ∈ (run c s turns).flatten, IsPacket (overhead s.edi + 576) packet := by
  induction turns generalizing s with
  | nil => simp [run]
  | cons t turns ih =>
    obtain ⟨hkeeps, hpackets⟩ := isPacket_turn c s t
    rw [run]
    generalize turn c s t = answer at hkeeps hpackets ⊢
    rcases answer with ⟨⟨packets, _ | retval | e⟩, s'⟩
    · have hrest := ih s'
      rw [hkeeps] at hrest
      rw [List.flatten_cons]
      exact List.forall_mem_append.mpr ⟨hpackets, hrest⟩
    · rwa [List.flatten_singleton]
    · rwa [List.flatten_singleton]

theorem IsPacket.ne_nil {size : ℕ} {packet : List UInt8} (h : IsPacket size packet) :
    packet ≠ [] := by
  obtain ⟨seq, payload, rfl, -⟩ := h
  exact nofun

/-! ## The superframes of a run -/

theorem length_flatten_run (hedi : c.ediEnabled = true) {s : SendLoop} (hs : s.Aligned)
    (hturns : ∀ t ∈ turns, t.Undisturbed c) :
    (run c s turns).flatten.length = 5 * turns.length := by
  have hcarries := (hs.sendsAll hedi hturns).carries
  obtain ⟨hpackets, -⟩ := packets_of_carries hcarries
  rw [hcarries.length_eq, List.length_flatten, List.sum_eq_card_nsmul _ 5, smul_eq_mul,
    List.length_map, Nat.mul_comm]
  exact List.forall_mem_map.mpr hpackets

theorem receive_of_restore (hedi : c.ediEnabled = true) {s : SendLoop} (hs : s.Aligned)
    (hturns : ∀ t ∈ turns, t.Undisturbed c) {rs : Rs} {stream : List (List UInt8)}
    (hrestore : ∀ (n : ℕ) (packet : List UInt8), (run c s turns).flatten[n]? = some packet →
      restore rs n stream = some packet) {k : ℕ} {t : Turn} (ht : turns[k]? = some t) :
    receive rs k stream = some t.outbuf.data := by
  obtain ⟨hpackets, hplace⟩ := packets_of_carries (hs.sendsAll hedi hturns).carries
  obtain ⟨packets, hsent, hsuperframe⟩ := hplace k t ht
  exact receive_eq hpackets hrestore hsent hsuperframe

/-- The packets of a run are restored from their fragments, if no packet loses more of them than
it is protected against. -/
theorem restore_of_isPacket {conf : Configuration} {pft : PFT}
    (hconf : PFT.ofConfiguration conf = .ok pft) {size : ℕ}
    (hsize : size ≤ 341 * conf.chunkLen.toNat) (hfec : 1 ≤ conf.fec) (hfec' : conf.fec ≤ 5)
    {codec : ReedSolomon} (hcodec : rsEncoder = .ok codec) {afs : List (List UInt8)}
    (hpackets : ∀ af ∈ afs, IsPacket size af) (hshort : afs.length ≤ 2 ^ 16)
    {stream : List (List UInt8)}
    (hstream : ∀ packet ∈ stream, ∃ (n : ℕ) (fragments : List (List UInt8)),
      (Mealy.outputs (PFT.assemble (protection codec)) pft afs)[n]? = some (.ok fragments) ∧
        packet ∈ fragments)
    (hlost : ∀ (n : ℕ) (fragments : List (List UInt8)),
      (Mealy.outputs (PFT.assemble (protection codec)) pft afs)[n]? = some (.ok fragments) →
        (fragments.filter (· ∉ stream)).length ≤ conf.fec.toNat)
    {n : ℕ} {af : List UInt8} (hn : afs[n]? = some af) :
    restore codec.rsData n stream = some af := by
  have hne : ∀ af ∈ afs, af ≠ [] := fun af haf => (hpackets af haf).ne_nil
  have hlength : ∀ af ∈ afs, af.length ≤ 341 * conf.chunkLen.toNat := fun af haf => by
    obtain ⟨-, -, -, hle⟩ := hpackets af haf
    exact hle.trans hsize
  have hk : 1 ≤ conf.chunkLen := UInt32.le_iff_toNat_le.mpr (by
    have haf := List.mem_of_getElem? hn
    have hpos := List.length_pos_of_ne_nil (hne af haf)
    have hle := hlength af haf
    have : (1 : UInt32).toNat = 1 := rfl
    omega)
  obtain ⟨hv, hpseq⟩ := PFT.Valid.of_configuration hconf hk (UInt32.le_trans hfec' (by decide))
  obtain ⟨hkConf, hm⟩ := PFT.eq_of_configuration hconf
  rw [← hm] at hfec hfec' hlost
  rw [← hkConf] at hlength
  obtain ⟨fragments, houtput, hrestore⟩ := restore_outputs hv hpseq hfec hfec' hcodec hne hshort
    (fits_of_length hv hfec hne hlength) hstream hn
  exact hrestore (hlost n fragments houtput)

/-- Every superframe arrives, whatever the network does to the fragments short of losing more of
a packet than it is protected against. -/
theorem delivered (hedi : c.ediEnabled = true) {odrVersionTag : List UInt8} {steady : ℤ}
    (hturns : ∀ t ∈ turns, t.Undisturbed c) {conf : Configuration} {pft : PFT}
    (hconf : PFT.ofConfiguration conf = .ok pft)
    (hsmall : odrVersionTag.length + conf.tagpacketAlignment.toNat + 676 ≤
      341 * conf.chunkLen.toNat)
    (hfec : 1 ≤ conf.fec) (hfec' : conf.fec ≤ 5) {codec : ReedSolomon}
    (hcodec : rsEncoder = .ok codec) (hshort : 5 * turns.length ≤ 2 ^ 16)
    {afs : List (List UInt8)}
    (hafs : (run c { edi := EDI.start odrVersionTag conf.tagpacketAlignment steady }
      turns).flatten = afs)
    {stream : List (List UInt8)}
    (hstream : ∀ packet ∈ stream, ∃ (n : ℕ) (fragments : List (List UInt8)),
      (Mealy.outputs (PFT.assemble (protection codec)) pft afs)[n]? = some (.ok fragments) ∧
        packet ∈ fragments)
    (hlost : ∀ (n : ℕ) (fragments : List (List UInt8)),
      (Mealy.outputs (PFT.assemble (protection codec)) pft afs)[n]? = some (.ok fragments) →
        (fragments.filter (· ∉ stream)).length ≤ conf.fec.toNat)
    {k : ℕ} {t : Turn} (ht : turns[k]? = some t) :
    receive codec.rsData k stream = some t.outbuf.data := by
  have haligned := aligned_start odrVersionTag conf.tagpacketAlignment steady
  have hcount := length_flatten_run hedi haligned hturns
  have hpackets := isPacket_run c
    { edi := EDI.start odrVersionTag conf.tagpacketAlignment steady } turns
  refine receive_of_restore hedi haligned hturns (fun n af hn => ?_) ht
  rw [hafs] at hcount hpackets hn
  exact restore_of_isPacket hconf hsmall hfec hfec' hcodec hpackets (hcount.trans_le hshort)
    hstream hlost hn

def withoutFirst : Except PFTError (List (List UInt8)) → List (List UInt8)
  | .ok fragments => fragments.tail
  | .error _ => []

theorem of_mem_withoutFirst {outputs : List (Except PFTError (List (List UInt8)))}
    {packet : List UInt8} (h : packet ∈ outputs.flatMap withoutFirst) :
    ∃ (n : ℕ) (fragments : List (List UInt8)),
      outputs[n]? = some (.ok fragments) ∧ packet ∈ fragments := by
  obtain ⟨output, hmem, hin⟩ := List.mem_flatMap.mp h
  obtain ⟨n, hn⟩ := List.getElem?_of_mem hmem
  cases output with
  | error e => cases hin
  | ok fragments => exact ⟨n, fragments, hn, List.mem_of_mem_tail hin⟩

theorem lost_withoutFirst {outputs : List (Except PFTError (List (List UInt8)))} {n : ℕ}
    {fragments : List (List UInt8)} (hn : outputs[n]? = some (.ok fragments)) :
    (fragments.filter (· ∉ outputs.flatMap withoutFirst)).length ≤ 1 := by
  cases fragments with
  | nil => exact Nat.zero_le _
  | cons first rest =>
    have hrest : ∀ packet ∈ rest, packet ∈ outputs.flatMap withoutFirst :=
      fun packet h => List.mem_flatMap.mpr ⟨_, List.mem_of_getElem? hn, h⟩
    rw [List.filter_cons, List.filter_eq_nil_iff.mpr (fun packet h => by simpa using hrest _ h)]
    split
    · exact le_rfl
    · exact Nat.zero_le _

theorem delivered_first_lost :
    ∃ codec pft, rsEncoder = .ok codec ∧ PFT.ofConfiguration { fec := 2 } = .ok pft ∧
      receive codec.rsData 1 ((Mealy.outputs (PFT.assemble (protection codec)) pft
        (run bothOutputs { edi := EDI.start [] 0 0 } [smallTurn true, smallTurn true]).flatten
          ).flatMap withoutFirst) = some [0, 1, 2, 3, 4] := by
  obtain ⟨codec, hcodec⟩ := exists_rsEncoder
  obtain ⟨pft, hconf⟩ : ∃ pft, PFT.ofConfiguration { fec := 2 } = .ok pft := ⟨_, rfl⟩
  refine ⟨codec, pft, hcodec, hconf, ?_⟩
  obtain ⟨afs, hafs⟩ : ∃ afs, (run bothOutputs { edi := EDI.start [] 0 0 }
    [smallTurn true, smallTurn true]).flatten = afs := ⟨_, rfl⟩
  rw [hafs]
  have hturns : ∀ t ∈ [smallTurn true, smallTurn true], t.Undisturbed bothOutputs := by
    have hserves (i : ℕ) : ∃ taiUtcOffset, ((smallTurn true).env i).Serves taiUtcOffset :=
      ⟨37, rfl, rfl⟩
    simpa using ⟨fun _ => rfl, fun i _ => hserves i⟩
  exact delivered rfl hturns hconf (by decide) (by decide) (by decide) hcodec (by decide) hafs
    (fun _ => of_mem_withoutFirst) (fun n fragments hn => (lost_withoutFirst hn).trans (by decide))
    (show [smallTurn true, smallTurn true][1]? = _ from rfl)

/-! ## Wrong bits -/

/-- Every packet of a run can be read, but not with one to three wrong bits. -/
theorem unread_of_wrongBits (c : Config) (odrVersionTag : List UInt8)
    (tagpacketAlignment : UInt32) (steady : ℤ) (turns : List Turn)
    (hsmall : odrVersionTag.length + tagpacketAlignment.toNat + 676 ≤ 4095)
    {packet received : List UInt8}
    (hpacket : packet ∈
      (run c { edi := EDI.start odrVersionTag tagpacketAlignment steady } turns).flatten)
    (hlength : received.length = packet.length) (hne : received ≠ packet)
    (hfew : wrongBits received packet ≤ 3) :
    (readAFPacket packet).isSome ∧ readAFPacket received = none := by
  obtain ⟨seq, payload, rfl, hle⟩ := isPacket_run c _ turns packet hpacket
  have hshort : (afPacket seq payload).length ≤ 4095 := hle.trans hsmall
  have hread : readAFPacket (afPacket seq payload) = some (seq.toNat, payload) := by
    rw [length_afPacket] at hshort
    exact readAFPacket_afPacket (by omega)
  exact ⟨hread ▸ rfl, readAFPacket_of_wrongBits hread hlength hshort hne hfew⟩

theorem unread_of_wrongBits_length :
    let packet := (run bothOutputs { edi := EDI.start [] 0 0 } [smallTurn true]).flatten.getD 0 []
    let received := ((packet.set 5 (packet.getD 5 0 ^^^ 1)).set 14 (packet.getD 14 0 ^^^ 0x80)).set
      15 (packet.getD 15 0 ^^^ 2)
    wrongBits received packet = 3 ∧
      (readAFPacket packet).isSome ∧ readAFPacket received = none := by
  intro packet received
  have hpacket : packet ∈
      (run bothOutputs { edi := EDI.start [] 0 0 } [smallTurn true]).flatten := by
    decide +kernel
  have hthree : wrongBits received packet = 3 := by decide +kernel
  exact ⟨hthree, unread_of_wrongBits bothOutputs [] 0 0 [smallTurn true] (by decide) hpacket
    (by decide +kernel) (by decide +kernel) hthree.le⟩

/-! ## Over TCP -/

open Socket in
/-- However the steps of the loop and of the client are interleaved, and wherever the connections
break off, a receiver gets whole packets of the run, each at most once and in order. -/
theorem streamed (c : Config) {odrVersionTag : List UInt8} {tagpacketAlignment : UInt32}
    {steady : ℤ} {turns : List Turn} {afs : List (List UInt8)}
    (hafs : (run c { edi := EDI.start odrVersionTag tagpacketAlignment steady } turns).flatten =
      afs)
    (hsmall : odrVersionTag.length + tagpacketAlignment.toNat + 676 ≤ 2 ^ 32)
    {ops : List SendStream.Op} (hsubmitted : SendStream.submissions ops <+: afs) :
    let connections := SendStream.streams [] (Mealy.outputs SendStream.step {} ops)
    connections.flatMap packetFraming.packets =
        SendStream.completions ops ++ (Mealy.state SendStream.step {} ops).landed ∧
      ∀ arrived, List.Forall₂ (· <+: ·) arrived connections →
        (arrived.flatMap packetFraming.packets).Sublist afs ∧
          ∀ packet ∈ arrived.flatMap packetFraming.packets, (readAFPacket packet).isSome := by
  intro connections
  have hisPacket := isPacket_run c
    { edi := EDI.start odrVersionTag tagpacketAlignment steady } turns
  rw [hafs] at hisPacket
  have hread : ∀ packet ∈ afs, ∃ p, readAFPacket packet = some p := fun packet hpacket => by
    obtain ⟨seq, payload, rfl, hlength⟩ := hisPacket packet hpacket
    have hle : (afPacket seq payload).length ≤ 2 ^ 32 := hlength.trans hsmall
    rw [length_afPacket] at hle
    exact ⟨_, readAFPacket_afPacket (by omega)⟩
  obtain ⟨hpackets, harrived⟩ := SendStream.received packetFraming ops fun packet hpacket => by
    obtain ⟨p, hp⟩ := hread packet (hsubmitted.subset hpacket)
    exact delimited_of_readAFPacket hp
  refine ⟨hpackets, fun arrived h => ?_⟩
  have hsublist := (harrived arrived h).trans hsubmitted.sublist
  refine ⟨hsublist, fun packet hpacket => ?_⟩
  obtain ⟨p, hp⟩ := hread packet (hsublist.subset hpacket)
  exact hp ▸ rfl

/-- The first packet is cut off, and the client goes on with the second over a new connection. -/
def brokenConnection (first second : List UInt8) : List Socket.SendStream.Op :=
  [.outside (.sendall first), .outside .push, .outside .size, .outside (.sendall second),
    .outside .push, .outside .size, .outside .loop, .outside (.connect true), .outside .loop,
    .outside .waitAndPop, .send (some 20), .send none, .outside .loop, .outside (.connect true),
    .outside .loop, .outside .waitAndPop, .send (some 30), .send (some 1000), .leave]

open Socket in
theorem streamed_broken :
    let afs := (run bothOutputs { edi := EDI.start [] 0 0 } [smallTurn true]).flatten
    let ops := brokenConnection (afs.getD 0 []) (afs.getD 1 [])
    let connections := SendStream.streams [] (Mealy.outputs SendStream.step {} ops)
    connections.map List.length = [0, 20, (afs.getD 1 []).length] ∧
      connections.flatMap packetFraming.packets =
        SendStream.completions ops ++ (Mealy.state SendStream.step {} ops).landed ∧
      ∀ arrived, List.Forall₂ (· <+: ·) arrived connections →
        (arrived.flatMap packetFraming.packets).Sublist afs ∧
          ∀ packet ∈ arrived.flatMap packetFraming.packets, (readAFPacket packet).isSome := by
  refine ⟨by decide +kernel, ?_⟩
  exact streamed bothOutputs rfl (by decide) (by decide +kernel)

end SendLoop

end SourceCompanion.Output
