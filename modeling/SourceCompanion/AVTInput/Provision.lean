import SourceCompanion.AVTInput.Returns

/-! # Answers to PAD requests

The PAD frames wait in a queue, and each request takes the first one. In its answer both length
fields have one byte, also where the frame is too long for that.
-/

namespace SourceCompanion.AVTInput.Endpoint

def provision (frame : List UInt8) : List UInt8 :=
  [0xFD, 0x18, UInt8.ofNat (frame.length + 2), 0xAD, UInt8.ofNat frame.length] ++ frame

/-- Read an answer by its format: the size counts what comes after it, and the length counts the
bytes of PAD. -/
def decodeProvision : List UInt8 → Option (List UInt8)
  | flag :: command :: size :: header :: padSize :: pad =>
    if flag = 0xFD ∧ command = 0x18 ∧ size.toNat = pad.length + 2 ∧ header = 0xAD ∧
        padSize.toNat = pad.length then
      some pad
    else none
  | _ => none

theorem decodeProvision_provision (frame : List UInt8) :
    decodeProvision (provision frame) = some frame ↔ frame.length ≤ 253 := by
  have hread : decodeProvision (provision frame) =
      if (frame.length + 2) % 256 = frame.length + 2 ∧ frame.length % 256 = frame.length then
        some frame
      else none := by
    simp [provision, decodeProvision]
  rw [hread]
  split
  · simp
    omega
  · simp
    omega

theorem padFrameQueue_pushPADFrame (s : Endpoint) (buf : List UInt8) :
    (s.pushPADFrame buf).padFrameQueue =
      s.padFrameQueue ++ if s.padPort = 0 ∨ buf.length = 0 then [] else [buf.reverse] := by
  unfold pushPADFrame
  by_cases hport : s.padPort = 0
  · simp [hport]
  · by_cases hempty : buf.length = 0
    · simp [hport, hempty]
    · simp [hport, hempty, Nat.pos_of_ne_zero hempty]

/-- Some requests are answered with the frames from the front of the queue. -/
def Answered (s s' : Endpoint) : Prop :=
  ∃ frames, s.padFrameQueue = frames ++ s'.padFrameQueue ∧
    s'.sent = s.sent ++ frames.map provision ∧ s'.padPort = s.padPort

theorem Answered.refl (s : Endpoint) : Answered s s := ⟨[], rfl, by simp, rfl⟩

theorem Answered.trans {s t u : Endpoint} (h : Answered s t) (h' : Answered t u) :
    Answered s u := by
  obtain ⟨v, hqueue, hsent, hport⟩ := h
  obtain ⟨w, hqueue', hsent', hport'⟩ := h'
  refine ⟨v ++ w, ?_, ?_, hport'.trans hport⟩
  · rw [hqueue, hqueue', List.append_assoc]
  · rw [hsent', hsent, List.map_append, List.append_assoc]

section Calls

variable (os : Os)

theorem ends_send_answered {s : Endpoint} {frame : List UInt8} {padFrameQueue : List (List UInt8)}
    (h : s.padFrameQueue = frame :: padFrameQueue) :
    Ends (fun _ => True) (Answered s) (send os { s with padFrameQueue } (provision frame)) := by
  unfold send orThrow
  cases os.sendto s.sent.length (provision frame) with
  | none => exact ⟨[frame], h, rfl, rfl⟩
  | some what => trivial

theorem ends_interpretMessage_answered (s : Endpoint) (data : List UInt8) :
    Ends (fun _ => True) (Answered s) (s.interpretMessage os data) := by
  unfold interpretMessage
  split
  · unfold sendPADFrame
    split
    · exact .refl s
    · rename_i hqueue
      exact ends_send_answered os hqueue
  · exact .refl s

theorem ends_checkMessage_answered (s : Endpoint) :
    Ends (fun _ => True) (fun r => Answered s r.2) (s.checkMessage os) := by
  have hreceive : Ends (fun _ => True) (fun r => Answered s r.2) s.receivePad := by
    unfold receivePad
    split
    · trivial
    · exact .refl s
    · exact .refl s
  apply hreceive.bind
  rintro ⟨buffer, t⟩ ht
  dsimp only
  split
  · exact ht
  · apply (ends_interpretMessage_answered os t buffer).bind
    exact fun u hu => ht.trans hu

theorem ends_readFrame_answered (s : Endpoint) :
    Ends (fun _ => True) (fun r => Answered s r.2) s.readFrame := by
  unfold readFrame
  split
  · trivial
  · exact .refl s
  · exact .refl s

theorem ends_drain_answered (fuel : ℕ) (s : Endpoint) :
    Ends (fun _ => True) (Answered s) (drain os fuel s) := by
  induction fuel generalizing s with
  | zero => trivial
  | succ fuel ih =>
    apply (ends_checkMessage_answered os s).bind
    rintro ⟨message, t⟩ ht
    cases message with
    | true => exact (ih t).imp_post fun u hu => ht.trans hu
    | false =>
      apply (ends_readFrame_answered t).bind
      rintro ⟨frame, u⟩ hu
      cases frame with
      | true => exact (ih u).imp_post fun v hv => (ht.trans hu).trans hv
      | false => exact ht.trans hu

theorem ends_drainMessages_answered (fuel : ℕ) (s : Endpoint) :
    Ends (fun _ => True) (Answered s) (drainMessages os fuel s) := by
  induction fuel generalizing s with
  | zero => trivial
  | succ fuel ih =>
    apply (ends_checkMessage_answered os s).bind
    rintro ⟨message, t⟩ ht
    cases message with
    | true => exact (ih t).imp_post fun u hu => ht.trans hu
    | false => exact ht

theorem ends_assemble_answered (fuel : ℕ) (s : Endpoint) :
    Ends (fun _ => True) (Answered s) (assemble os fuel s) := by
  induction fuel generalizing s with
  | zero => trivial
  | succ fuel ih =>
    unfold assemble
    split
    · split
      · trivial
      · exact .refl s
      · split
        · exact .refl s
        · apply (ends_drainMessages_answered os fuel _).bind
          intro t ht
          exact (ih _).imp_post fun u hu => ht.trans hu
    · exact .refl s

theorem ends_getNextFrame_answered (fuel : ℕ) (s : Endpoint) (bufSize : ℕ) :
    Ends (fun _ => True) (fun r => Answered s r.2) (s.getNextFrame os fuel bufSize) := by
  apply (ends_drain_answered os fuel s).bind
  intro t ht
  apply (ends_assemble_answered os fuel t).bind
  exact fun u hu => ht.trans hu

end Calls

/-- The states after some PAD frames were stored: datagrams arrive, messages are checked and calls
return in between. The frames have as many bytes as a PAD field can have. -/
inductive Provided (os : Os) (start : Endpoint) : List (List UInt8) → Endpoint → Prop where
  | start : Provided os start [] start
  | arriveInput {pushed : List (List UInt8)} {s : Endpoint} (d : Datagram) (ts : ℤ) :
      Provided os start pushed s →
      Provided os start pushed { s with inputSocket := { s.inputSocket with
        pending := s.inputSocket.pending ++ [(d, ts)] } }
  | arrivePad {pushed : List (List UInt8)} {s : Endpoint} (d : List UInt8) :
      Provided os start pushed s →
      Provided os start pushed { s with inputPadSocket := { s.inputPadSocket with
        pending := s.inputPadSocket.pending ++ [d] } }
  | pushPADFrame {pushed : List (List UInt8)} {s : Endpoint} (buf : List UInt8) :
      1 ≤ buf.length ∧ buf.length ≤ 255 → Provided os start pushed s →
      Provided os start (pushed ++ [buf]) (s.pushPADFrame buf)
  | checkMessage {pushed : List (List UInt8)} {s s' : Endpoint} {message : Bool} :
      Provided os start pushed s → s.checkMessage os = .ok (message, s') →
      Provided os start pushed s'
  | getNextFrame {pushed : List (List UInt8)} {s s' : Endpoint} {fuel bufSize : ℕ}
      {superframe : Option (List UInt8 × ℤ)} : Provided os start pushed s →
      s.getNextFrame os fuel bufSize = .ok (superframe, s') → Provided os start pushed s'

def answers (start s : Endpoint) : List (List UInt8) := s.sent.drop start.sent.length

section Run

variable {os : Os} {start s : Endpoint} {pushed : List (List UInt8)}

theorem padPort_pushPADFrame (s : Endpoint) (buf : List UInt8) :
    (s.pushPADFrame buf).padPort = s.padPort := by
  obtain ⟨padFrameQueue, hpush⟩ := pushPADFrame_eq s buf
  rw [hpush]

theorem sent_pushPADFrame (s : Endpoint) (buf : List UInt8) :
    (s.pushPADFrame buf).sent = s.sent := by
  obtain ⟨padFrameQueue, hpush⟩ := pushPADFrame_eq s buf
  rw [hpush]

/-- What was stored is what was answered, followed by what is still in the queue. -/
structure Conserved (start : Endpoint) (pushed answered : List (List UInt8)) (s : Endpoint) :
    Prop where
  sent : s.sent = start.sent ++ answered.map provision
  queue : start.padFrameQueue ++ pushed.map List.reverse = answered ++ s.padFrameQueue
  padPort : s.padPort = start.padPort

theorem Conserved.of_answered {answered : List (List UInt8)} {s' : Endpoint}
    (h : Conserved start pushed answered s) (h' : Answered s s') :
    ∃ answered', Conserved start pushed answered' s' := by
  obtain ⟨frames, hqueue, hsent, hport⟩ := h'
  refine ⟨answered ++ frames, ?_, ?_, hport.trans h.padPort⟩
  · rw [hsent, h.sent, List.map_append, List.append_assoc]
  · rw [h.queue, hqueue, List.append_assoc]

theorem Conserved.push {answered : List (List UInt8)} (h : Conserved start pushed answered s)
    (hport : start.padPort ≠ 0) {buf : List UInt8} (hlen : 1 ≤ buf.length) :
    Conserved start (pushed ++ [buf]) answered (s.pushPADFrame buf) where
  sent := (sent_pushPADFrame s buf).trans h.sent
  padPort := (padPort_pushPADFrame s buf).trans h.padPort
  queue := by
    have hstored : ¬(s.padPort = 0 ∨ buf.length = 0) := by
      rw [h.padPort]
      exact not_or.mpr ⟨hport, Nat.one_le_iff_ne_zero.mp hlen⟩
    rw [padFrameQueue_pushPADFrame, if_neg hstored, List.map_append, ← List.append_assoc, h.queue,
      List.append_assoc]
    rfl

theorem Provided.conserved (h : Provided os start pushed s) (hport : start.padPort ≠ 0) :
    ∃ answered, Conserved start pushed answered s := by
  induction h with
  | start => exact ⟨[], by simp, by simp, rfl⟩
  | arriveInput d ts _ ih =>
    obtain ⟨answered, ih⟩ := ih
    exact ⟨answered, ih.sent, ih.queue, ih.padPort⟩
  | arrivePad d _ ih =>
    obtain ⟨answered, ih⟩ := ih
    exact ⟨answered, ih.sent, ih.queue, ih.padPort⟩
  | pushPADFrame buf hlen _ ih =>
    obtain ⟨answered, ih⟩ := ih
    exact ⟨answered, ih.push hport hlen.1⟩
  | checkMessage _ hcall ih =>
    rename_i s s' message _
    obtain ⟨answered, ih⟩ := ih
    have hends := ends_checkMessage_answered os s
    rw [hcall] at hends
    exact ih.of_answered hends
  | getNextFrame _ hcall ih =>
    rename_i s s' fuel bufSize superframe _
    obtain ⟨answered, ih⟩ := ih
    have hends := ends_getNextFrame_answered os fuel s bufSize
    rw [hcall] at hends
    exact ih.of_answered hends

/-- The answers to the requests are the stored frames in turn, reversed. -/
theorem Provided.answers_eq (h : Provided os start pushed s) (hport : start.padPort ≠ 0)
    (hempty : start.padFrameQueue = []) :
    answers start s =
      (pushed.take (answers start s).length).map fun buf => provision buf.reverse := by
  obtain ⟨answered, hsent, hqueue, -⟩ := h.conserved hport
  rw [hempty, List.nil_append] at hqueue
  have hanswers : answers start s = answered.map provision := by
    rw [answers, hsent, List.drop_left]
  have htake : (pushed.take answered.length).map List.reverse = answered := by
    rw [List.map_take, hqueue, List.take_left]
  rw [hanswers, List.length_map]
  conv_lhs => rw [← htake]
  rw [List.map_map]
  rfl

/-- Every answered request is answered with the frame whose turn it is, in a form that reads back
as the frame reversed, exactly if the answered frames have at most 253 bytes. -/
theorem provided_iff (h : Provided os start pushed s) (hport : start.padPort ≠ 0)
    (hempty : start.padFrameQueue = []) :
    (∀ (n : ℕ) (packet : List UInt8), (answers start s)[n]? = some packet →
      ∃ buf, pushed[n]? = some buf ∧ decodeProvision packet = some buf.reverse) ↔
      ∀ (n : ℕ) (buf : List UInt8), n < (answers start s).length → pushed[n]? = some buf →
        buf.length ≤ 253 := by
  have hget (n : ℕ) (hn : n < (answers start s).length) :
      (answers start s)[n]? = pushed[n]?.map fun buf => provision buf.reverse := by
    conv_lhs => rw [h.answers_eq hport hempty]
    rw [List.getElem?_map, List.getElem?_take_of_lt hn]
  constructor
  · intro hread n buf hn hbuf
    have hanswer : (answers start s)[n]? = some (provision buf.reverse) := by
      rw [hget n hn, hbuf]
      rfl
    obtain ⟨buf', hbuf', hdecode⟩ := hread n _ hanswer
    obtain rfl : buf = buf' := Option.some.inj (hbuf.symm.trans hbuf')
    rw [← List.length_reverse]
    exact (decodeProvision_provision buf.reverse).mp hdecode
  · intro hshort n packet hpacket
    have hn : n < (answers start s).length := (List.getElem?_eq_some_iff.mp hpacket).1
    rw [hget n hn, Option.map_eq_some_iff] at hpacket
    obtain ⟨buf, hbuf, rfl⟩ := hpacket
    refine ⟨buf, hbuf, (decodeProvision_provision buf.reverse).mpr ?_⟩
    rw [List.length_reverse]
    exact hshort n buf hn hbuf

end Run

theorem provided_one (buf : List UInt8) (hlen : 1 ≤ buf.length ∧ buf.length ≤ 255) :
    ∃ s, Provided quietOs (inputOn 9000) [buf] s ∧
      answers (inputOn 9000) s = [provision buf.reverse] := by
  obtain ⟨b, rest, rfl⟩ := List.exists_cons_of_length_pos hlen.1
  have hstored : Provided quietOs (inputOn 9000) [b :: rest] _ :=
    .arrivePad [0xFD, 0x17] (.pushPADFrame (b :: rest) hlen .start)
  exact ⟨_, .checkMessage hstored rfl, rfl⟩

/-- The answer with a frame of 254 bytes says that nothing comes after its size. -/
theorem provided_254 :
    ∃ s, Provided quietOs (inputOn 9000) [List.replicate 254 0] s ∧
      answers (inputOn 9000) s = [provision (List.replicate 254 0)] ∧
      decodeProvision (provision (List.replicate 254 0)) ≠ some (List.replicate 254 0) := by
  have hlen : (List.replicate 254 (0 : UInt8)).length = 254 := List.length_replicate
  obtain ⟨s, hs, hanswers⟩ := provided_one (List.replicate 254 0) (by omega)
  rw [List.reverse_replicate] at hanswers
  refine ⟨s, hs, hanswers, fun hdecode => ?_⟩
  have hle := (decodeProvision_provision _).mp hdecode
  omega

theorem provided_three :
    ∃ s, Provided quietOs (inputOn 9000) [[1, 2, 3]] s ∧
      ∀ (n : ℕ) (packet : List UInt8), (answers (inputOn 9000) s)[n]? = some packet →
        ∃ buf, [[1, 2, 3]][n]? = some buf ∧ decodeProvision packet = some buf.reverse := by
  obtain ⟨s, hs, hanswers⟩ := provided_one [1, 2, 3] (by decide)
  refine ⟨s, hs, (provided_iff hs (by decide) rfl).mpr ?_⟩
  intro n buf hn hbuf
  obtain rfl : n = 0 := by
    rw [hanswers] at hn
    exact Nat.lt_one_iff.mp hn
  obtain rfl : [1, 2, 3] = buf := Option.some.inj hbuf
  decide

end SourceCompanion.AVTInput.Endpoint
