import SourceCompanion.AVTInput.Superframe
import SourceCompanion.Output.Timestamp

/-! # The send loop

The main loop sends every superframe over the ZMQ output and, in five blocks, over the EDI
output. Both report to one flag, and the loop over the blocks ends once the flag is down. The
five packets of a superframe and the alignment of the frame counter with the superframes
depend on that.
-/

namespace SourceCompanion.Output

open Bytes Tlv Edi

structure Outbuf where
  data : List UInt8
  pos : 0 < data.length
  dvd : 5 ∣ data.length
  le : data.length ≤ 24 * 120

theorem outbuf_of_returned {bitrate jitterBufferSize : ℕ} {s : AVTInput}
    (hs : AVTInput.setDabPlusParameters bitrate jitterBufferSize = some s)
    (calls : List AVTInput.Call) :
    ∀ r ∈ (Mealy.outputs AVTInput.getNextFrame s calls).reduceOption,
      ∃ outbuf : Outbuf, outbuf.data = r.1 := by
  intro r hr
  have hlength := AVTInput.length_of_returned hs calls r hr
  obtain ⟨frameSize, hsize, rfl⟩ := Option.map_eq_some_iff.mp hs
  simp only [AVTInput.configuredFrameSize] at hsize
  split_ifs at hsize
  obtain rfl := Option.some.inj hsize
  dsimp only at hlength
  exact ⟨⟨r.1, by omega, by omega, by omega⟩, rfl⟩

/-- A turn of the loop that got a superframe: its capture time in nanoseconds after the epoch,
the audio levels, whether the ZMQ socket takes the message, and what the call for each block
meets. A turn that gets none ends the loop. The socket is of the type `ZMQ_PUB`, on which a send
that does not wait never answers `EAGAIN`: it takes the message or throws. -/
structure Turn where
  outbuf : Outbuf
  ts : ℕ
  peakLeft : Int16 := 0
  peakRight : Int16 := 0
  zmqSent : Bool
  env : ℕ → Env

structure Config where
  zmqOutput : Bool
  ediOutputUris : Bool
  ediEnabled : Bool
  tistEnabled : Bool := false
  tistDelayMs : UInt32 := 0

structure SendLoop where
  edi : EDI
  sendErrorCount : ℕ := 0

inductive Ending
  | goOn
  | abort (retval : ℕ)
  | thrown (what : String)
  deriving DecidableEq

/-- The packets sent, oldest first. -/
abbrev Packets := List (List UInt8)

namespace SendLoop

def writeBlocks (data : List UInt8) (blocksize : ℕ) (env : ℕ → Env) :
    List ℕ → Bool → EDI → (Except String Bool × Packets) × EDI
  | [], success, edi => ((.ok success, []), edi)
  | i :: is, success, edi =>
    match edi.writeFrame (slice data (i * blocksize) blocksize) (env i) with
    | (.error e, edi) => ((.error e, []), edi)
    | (.ok packet, edi) =>
      let success := success && true
      if ¬ success then ((.ok success, [packet]), edi)
      else
        let ((result, packets), edi) := writeBlocks data blocksize env is success edi
        ((result, packet :: packets), edi)

def writeEdi (c : Config) (t : Turn) (success : Bool) (edi : EDI) :
    (Except String Bool × Packets) × EDI :=
  if c.ediEnabled then
    let edi := edi.updateAudioLevels t.peakLeft t.peakRight
    if t.outbuf.data.length % 5 ≠ 0 then
      ((.error "Superframe size not multiple of 5", []), edi)
    else writeBlocks t.outbuf.data (t.outbuf.data.length / 5) t.env [0, 1, 2, 3, 4] success edi
  else ((.ok success, []), edi)

def turn (c : Config) (s : SendLoop) (t : Turn) : (Packets × Ending) × SendLoop :=
  match if c.ediOutputUris then s.edi.setTist c.tistEnabled c.tistDelayMs t.ts
      else (.ok (), s.edi) with
  | (.error e, edi) => (([], .thrown e), { s with edi })
  | (.ok (), edi) =>
    let success := !c.zmqOutput || t.zmqSent
    match writeEdi c t success edi with
    | ((.error e, packets), edi) => ((packets, .thrown e), { s with edi })
    | ((.ok success, packets), edi) =>
      let sendErrorCount := if success then s.sendErrorCount else s.sendErrorCount + 1
      if sendErrorCount > 10 then ((packets, .abort 4), { edi, sendErrorCount })
      else ((packets, .goOn), { edi, sendErrorCount })

/-- The packets of each turn, until the loop ends. -/
def run (c : Config) (s : SendLoop) : List Turn → List Packets
  | [] => []
  | t :: turns =>
    match turn c s t with
    | ((packets, .goOn), s) => packets :: run c s turns
    | ((packets, _), _) => [packets]

end SendLoop

def packetDfct (packet : List UInt8) : Option ℕ :=
  (tagValue EDI.dstiName packet).map fun value => (readDSTI value).dfct

/-- A packet with a block of the superframe behind the stream header, and a frame counter that
is aligned with the superframes. -/
def CarriesBlock (outbuf : Outbuf) (i : ℕ) (packet : List UInt8) : Prop :=
  (tagValue EDI.ssName packet).map (List.drop 3) =
      some (slice outbuf.data (i * outbuf.data.length / 5) (outbuf.data.length / 5)) ∧
    (packetDfct packet).map (· % 5) = some (i % 5)

def CarriesSuperframe (outbuf : Outbuf) (packets : Packets) : Prop :=
  List.Forall₂ (CarriesBlock outbuf) [0, 1, 2, 3, 4] packets

/-- Every superframe is sent over EDI, and in the same packets as if ZMQ never failed. -/
structure SendLoop.SendsAll (c : Config) (s : SendLoop) (turns : List Turn) : Prop where
  carries : List.Forall₂ (fun t packets => CarriesSuperframe t.outbuf packets) turns
    (s.run c turns)
  independent : s.run c turns = s.run c (turns.map fun t => { t with zmqSent := true })

/-- Nothing fails in a turn: the ZMQ socket, if there is one, takes the message, and the call
for every block is served. -/
def Turn.Undisturbed (c : Config) (t : Turn) : Prop :=
  (c.zmqOutput = true → t.zmqSent = true) ∧
    ∀ i ∈ [0, 1, 2, 3, 4], ∃ taiUtcOffset, (t.env i).Serves taiUtcOffset

/-! ## Blocks -/

section Blocks

variable {data : List UInt8} {blocksize : ℕ} {env : ℕ → Env} {edi : EDI} {success : Bool}

theorem packet_writeFrame {buf : List UInt8} {now : Env} {taiUtcOffset : ℤ}
    (hserves : now.Serves taiUtcOffset) (hdlfc : edi.tagDSTI.dlfc.toNat < 5000)
    (hbuf : buf.length ≤ 24 * 120) :
    ∃ packet, edi.writeFrame buf now = (.ok packet, edi.sent now taiUtcOffset) ∧
      (tagValue EDI.ssName packet).map (List.drop 3) = some buf ∧
      packetDfct packet = some edi.tagDSTI.dlfc.toNat := by
  obtain ⟨packet, hwrite, hdsti, hss⟩ := EDI.writeFrame_of_serves hserves edi buf
  refine ⟨packet, hwrite, ?_, ?_⟩
  · rw [hss (by simp [EDI.ssValue, TagItem.value]; omega)]
    rfl
  · have hlt : (edi.dstiToSend taiUtcOffset).dlfc.toNat < 5000 := hdlfc
    rw [packetDfct, hdsti, Option.map_some, TagDSTI.readDSTI_value hlt, Management.dfct]
    exact congrArg some (Nat.div_add_mod' _ 250)

/-- While the flag is up and the calls are served, every block is sent, and the frame
counter counts the blocks. -/
theorem writeBlocks_of_ok {n i : ℕ} (data : List UInt8) (edi : EDI)
    (hblock : blocksize ≤ 24 * 120)
    (hserved : ∀ j ∈ List.range' i n, ∃ taiUtcOffset, (env j).Serves taiUtcOffset)
    (hdlfc : edi.tagDSTI.dlfc.toNat < 5000) (hi : edi.tagDSTI.dlfc.toNat % 5 = i % 5) :
    ∃ packets edi', SendLoop.writeBlocks data blocksize env (List.range' i n) true edi =
        ((.ok true, packets), edi') ∧
      List.Forall₂ (fun j packet =>
        (tagValue EDI.ssName packet).map (List.drop 3) =
            some (slice data (j * blocksize) blocksize) ∧
          (packetDfct packet).map (· % 5) = some (j % 5)) (List.range' i n) packets ∧
      edi'.tagDSTI.dlfc.toNat < 5000 ∧ edi'.tagDSTI.dlfc.toNat % 5 = (i + n) % 5 := by
  induction n generalizing i edi with
  | zero => exact ⟨[], edi, rfl, List.Forall₂.nil, hdlfc, hi⟩
  | succ n ih =>
    rw [List.range'_succ] at hserved ⊢
    obtain ⟨taiUtcOffset, hserves⟩ := hserved i List.mem_cons_self
    have hslice : (slice data (i * blocksize) blocksize).length ≤ 24 * 120 := by
      rw [slice, List.length_take]
      omega
    obtain ⟨packet, hwrite, hss, hdfct⟩ := packet_writeFrame hserves hdlfc hslice
    have hnext : (edi.sent (env i) taiUtcOffset).tagDSTI.dlfc.toNat =
        (edi.tagDSTI.dlfc.toNat + 1) % 5000 := TagDSTI.dlfc_assemble _
    obtain ⟨packets, edi', hrest, hpackets, hlt, hmod⟩ :=
      ih (i := i + 1) (edi.sent (env i) taiUtcOffset)
        (fun j hj => hserved j (List.mem_cons_of_mem _ hj)) (by omega) (by omega)
    refine ⟨packet :: packets, edi', ?_, List.Forall₂.cons ⟨hss, ?_⟩ hpackets, hlt, by omega⟩
    · rw [SendLoop.writeBlocks, hwrite]
      dsimp only
      rw [Bool.and_true, if_neg (by simp), hrest]
    · rw [hdfct, Option.map_some, hi]

theorem of_length_writeBlocks {is : List ℕ}
    (h : (SendLoop.writeBlocks data blocksize env is success edi).1.2.length = is.length) :
    (∀ i ∈ is, ∃ taiUtcOffset, (env i).Serves taiUtcOffset) ∧
      (1 < is.length → success = true) := by
  induction is generalizing edi with
  | nil => simp
  | cons i is ih =>
    rw [SendLoop.writeBlocks] at h
    by_cases hserves : ∃ taiUtcOffset, (env i).Serves taiUtcOffset
    · obtain ⟨taiUtcOffset, hi⟩ := hserves
      obtain ⟨packet, hwrite, -⟩ :=
        EDI.writeFrame_of_serves hi edi (slice data (i * blocksize) blocksize)
      rw [hwrite] at h
      dsimp only at h
      rw [Bool.and_true] at h
      cases success with
      | false =>
        -- The flag is down already: the first packet is the last one.
        rw [if_pos (by simp)] at h
        obtain rfl : is = [] := List.length_eq_zero_iff.mp (by simpa using h.symm)
        exact ⟨List.forall_mem_singleton.mpr ⟨taiUtcOffset, hi⟩, fun hlt => by simp at hlt⟩
      | true =>
        rw [if_neg (by simp)] at h
        obtain ⟨his, -⟩ := ih (by simpa using h)
        exact ⟨List.forall_mem_cons.mpr ⟨⟨taiUtcOffset, hi⟩, his⟩, fun _ => rfl⟩
    · obtain ⟨e, s', hwrite, -⟩ :=
        EDI.writeFrame_of_not_serves hserves edi (slice data (i * blocksize) blocksize)
      rw [hwrite] at h
      simp at h

end Blocks

/-! ## Turns -/

namespace SendLoop

variable {c : Config} {s : SendLoop} {t : Turn}

/-- Between the turns the frame counter is a multiple of five, and the loop has not ended. -/
structure Aligned (s : SendLoop) : Prop where
  dlfc_lt : s.edi.tagDSTI.dlfc.toNat < 5000
  dlfc_mod : s.edi.tagDSTI.dlfc.toNat % 5 = 0
  sendErrorCount_le : s.sendErrorCount ≤ 10

theorem aligned_start (odrVersionTag : List UInt8) (tagpacketAlignment : UInt32) (steady : ℤ) :
    Aligned { edi := EDI.start odrVersionTag tagpacketAlignment steady } where
  dlfc_lt := show (0 : UInt16).toNat < 5000 by decide
  dlfc_mod := rfl
  sendErrorCount_le := Nat.zero_le _

theorem turn_eq (c : Config) (s : SendLoop) (t : Turn) :
    ∃ edi : EDI, edi.tagDSTI = s.edi.tagDSTI ∧
      turn c s t = match writeEdi c t (!c.zmqOutput || t.zmqSent) edi with
        | ((.error e, packets), edi) => ((packets, .thrown e), { s with edi })
        | ((.ok success, packets), edi) =>
          let sendErrorCount := if success then s.sendErrorCount else s.sendErrorCount + 1
          if sendErrorCount > 10 then ((packets, .abort 4), { edi, sendErrorCount })
          else ((packets, .goOn), { edi, sendErrorCount }) := by
  cases huris : c.ediOutputUris with
  | false => exact ⟨s.edi, rfl, by rw [turn, huris]; rfl⟩
  | true =>
    have htist := s.edi.setTist_eq ⟨c.tistEnabled, c.tistDelayMs, t.ts⟩
    dsimp only at htist
    refine ⟨(s.edi.setTist c.tistEnabled c.tistDelayMs t.ts).2, by rw [htist], ?_⟩
    rw [turn, if_pos huris, htist]

theorem turn_of_undisturbed (hedi : c.ediEnabled = true) (h : s.Aligned)
    (ht : t.Undisturbed c) :
    ∃ packets s', turn c s t = ((packets, .goOn), s') ∧
      CarriesSuperframe t.outbuf packets ∧ s'.Aligned := by
  obtain ⟨edi, htag, hturn⟩ := turn_eq c s t
  have hsuccess : (!c.zmqOutput || t.zmqSent) = true := by
    cases hzmq : c.zmqOutput with
    | false => rfl
    | true => simpa using ht.1 hzmq
  have hdvd : t.outbuf.data.length % 5 = 0 := Nat.mod_eq_zero_of_dvd t.outbuf.dvd
  have hblock : t.outbuf.data.length / 5 ≤ 24 * 120 := (Nat.div_le_self _ _).trans t.outbuf.le
  obtain ⟨packets, edi', hblocks, hpackets, hlt, hmod⟩ :=
    writeBlocks_of_ok (n := 5) (i := 0) t.outbuf.data
      (edi.updateAudioLevels t.peakLeft t.peakRight) hblock ht.2 (htag ▸ h.dlfc_lt)
      (htag ▸ h.dlfc_mod)
  refine ⟨packets, { s with edi := edi' }, ?_, ?_, ⟨hlt, hmod, h.sendErrorCount_le⟩⟩
  · have hedi' : writeEdi c t true edi = ((.ok true, packets), edi') := by
      rw [writeEdi, if_pos hedi]
      dsimp only
      rw [if_neg (by simpa using hdvd)]
      exact hblocks
    rw [hturn, hsuccess, hedi']
    exact if_neg (Nat.not_lt.mpr h.sendErrorCount_le)
  · refine hpackets.imp fun j packet hpacket => ?_
    rw [CarriesBlock, Nat.mul_div_assoc j t.outbuf.dvd]
    exact hpacket

theorem undisturbed_of_turn (hedi : c.ediEnabled = true) (h : (turn c s t).1.1.length = 5) :
    t.Undisturbed c := by
  obtain ⟨edi, -, hturn⟩ := turn_eq c s t
  have hpackets : (turn c s t).1.1 = (writeEdi c t (!c.zmqOutput || t.zmqSent) edi).1.2 := by
    rw [hturn]
    rcases writeEdi c t (!c.zmqOutput || t.zmqSent) edi with ⟨⟨_ | success, packets⟩, edi'⟩
    · rfl
    · dsimp only
      split_ifs <;> rfl
  have hdvd : t.outbuf.data.length % 5 = 0 := Nat.mod_eq_zero_of_dvd t.outbuf.dvd
  rw [hpackets, writeEdi, if_pos hedi] at h
  dsimp only at h
  rw [if_neg (by simpa using hdvd)] at h
  obtain ⟨hserved, hsuccess⟩ := of_length_writeBlocks h
  refine ⟨fun hzmq => ?_, hserved⟩
  simpa [hzmq] using hsuccess (by decide)

/-! ## Runs -/

theorem turn_zmqSent (h : c.zmqOutput = true → t.zmqSent = true) :
    turn c s { t with zmqSent := true } = turn c s t := by
  have hsuccess : (!c.zmqOutput || t.zmqSent) = (!c.zmqOutput || true) := by
    cases hzmq : c.zmqOutput with
    | false => rfl
    | true => rw [h hzmq]
  simp only [turn, writeEdi, hsuccess]

theorem Aligned.sendsAll (hedi : c.ediEnabled = true) (h : s.Aligned) {turns : List Turn}
    (hturns : ∀ t ∈ turns, t.Undisturbed c) : SendsAll c s turns := by
  induction turns generalizing s with
  | nil => exact ⟨List.Forall₂.nil, rfl⟩
  | cons t turns ih =>
    have ht := hturns t List.mem_cons_self
    obtain ⟨packets, s', hturn, hpackets, hs'⟩ := turn_of_undisturbed hedi h ht
    obtain ⟨hcarries, hindependent⟩ := ih hs' fun t ht => hturns t (List.mem_cons_of_mem _ ht)
    refine ⟨?_, ?_⟩
    · rw [run, hturn]
      exact List.Forall₂.cons hpackets hcarries
    · rw [List.map_cons, run, run, turn_zmqSent ht.1, hturn]
      dsimp only
      rw [hindependent]

theorem run_cons (c : Config) (s : SendLoop) (t : Turn) (turns : List Turn) :
    ∃ rest, run c s (t :: turns) = (turn c s t).1.1 :: rest := by
  rw [run]
  rcases turn c s t with ⟨⟨packets, _ | retval | e⟩, s'⟩
  · exact ⟨_, rfl⟩
  · exact ⟨[], rfl⟩
  · exact ⟨[], rfl⟩

theorem Aligned.undisturbed (hedi : c.ediEnabled = true) (h : s.Aligned) {turns : List Turn}
    (hcarries : List.Forall₂ (fun t packets => CarriesSuperframe t.outbuf packets) turns
      (s.run c turns)) : ∀ t ∈ turns, t.Undisturbed c := by
  induction turns generalizing s with
  | nil => simp
  | cons t turns ih =>
    have ht : t.Undisturbed c := by
      obtain ⟨rest, hrun⟩ := run_cons c s t turns
      rw [hrun] at hcarries
      exact undisturbed_of_turn hedi (List.forall₂_cons.mp hcarries).1.length_eq.symm
    obtain ⟨packets, s', hturn, -, hs'⟩ := turn_of_undisturbed hedi h ht
    rw [run, hturn] at hcarries
    exact List.forall_mem_cons.mpr ⟨ht, ih hs' (List.forall₂_cons.mp hcarries).2⟩

/-- The loop sends every superframe over EDI, whatever ZMQ answers, exactly when no turn is
disturbed. -/
theorem sendsAll_iff (c : Config) (hedi : c.ediEnabled = true) (odrVersionTag : List UInt8)
    (tagpacketAlignment : UInt32) (steady : ℤ) (turns : List Turn) :
    SendsAll c { edi := EDI.start odrVersionTag tagpacketAlignment steady } turns ↔
      ∀ t ∈ turns, t.Undisturbed c :=
  have haligned := aligned_start odrVersionTag tagpacketAlignment steady
  ⟨fun h => haligned.undisturbed hedi h.carries, haligned.sendsAll hedi⟩

def bothOutputs : Config where
  zmqOutput := true
  ediOutputUris := true
  ediEnabled := true

def smallTurn (zmqSent : Bool) : Turn where
  outbuf := ⟨[0, 1, 2, 3, 4], by decide, by decide, by decide⟩
  ts := 0
  zmqSent
  env _ := { taiOffset := .ok 37, steady := 0 }

theorem sendsAll_two_turns :
    bothOutputs.ediEnabled = true ∧
      (SendsAll bothOutputs { edi := EDI.start [] 0 0 } [smallTurn true, smallTurn true] ↔
        ∀ t ∈ [smallTurn true, smallTurn true], t.Undisturbed bothOutputs) :=
  ⟨rfl, sendsAll_iff bothOutputs rfl [] 0 0 _⟩

/-- A message that ZMQ does not take stops the superframe on EDI after its first block, and
the next one starts with a wrong frame counter. -/
theorem zmq_failure_stops_superframe :
    (run bothOutputs { edi := EDI.start [] 0 0 } [smallTurn false, smallTurn true]).map
        (fun packets => packets.map packetDfct) =
      [[some 0], [some 1, some 2, some 3, some 4, some 5]] ∧
    ¬ SendsAll bothOutputs { edi := EDI.start [] 0 0 } [smallTurn false, smallTurn true] := by
  refine ⟨by decide +kernel, fun h => ?_⟩
  have hdisturbed := (aligned_start [] 0 0).undisturbed rfl h.carries _ List.mem_cons_self
  exact absurd (hdisturbed.1 rfl) (by decide)

end SendLoop

end SourceCompanion.Output
