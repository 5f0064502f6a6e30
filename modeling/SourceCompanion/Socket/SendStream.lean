import SourceCompanion.Framing.Basic
import SourceCompanion.Socket.SendClient

/-! # The streams of the sending client

The thread of the client hands a buffer to the socket bit by bit, and an error may stop it in the
middle. The buffer is then given up, and the next one begins a new connection. So a receiver
that takes packets off every connection gets those buffers, and only those, that were sent to
their end.
-/

namespace SourceCompanion.Socket

/-- A client whose thread may be in `TCPSocket::sendall`, with what is left of the buffer. -/
structure SendStream where
  client : TCPSendClient (List UInt8) := {}
  buf : List UInt8 := []

namespace SendStream

/-- A step outside `TCPSocket::sendall`, a call of `send` with its answer, or the end of the
loop. -/
inductive Op where
  | outside (op : TCPSendClient.Op (List UInt8))
  | send (sent : Option ℕ)
  | leave

inductive Event where
  | quiet
  | submitted (buffer : List UInt8)
  | opened
  | bytes (sent : List UInt8)
  | completed (buffer : List UInt8)
  | givenUp (buffer : List UInt8)

def Event.ofClient : TCPSendClient.Event (List UInt8) → Event
  | .submit buffer => .submitted buffer
  | _ => .quiet

def entered (buf : List UInt8) : TCPSendClient.Event (List UInt8) → List UInt8
  | .take incoming => incoming
  | _ => buf

def stepOutside (s : SendStream) (op : TCPSendClient.Op (List UInt8)) : Event × SendStream :=
  match op with
  | .send _ => (.quiet, s)
  | .connect succeeds =>
    (if succeeds ∧ s.client.process = .connecting then .opened else .quiet,
      { s with client := (s.client.step op).2 })
  | _ =>
    (.ofClient (s.client.step op).1,
      { client := (s.client.step op).2, buf := entered s.buf (s.client.step op).1 })

/-- A call of `send` takes some of the bytes that are left, or fails. -/
def stepSend (s : SendStream) (sent : Option ℕ) : Event × SendStream :=
  match s.client.process, s.buf, sent with
  | .sending _, b :: buf, some n =>
    (.bytes ((b :: buf).take n), { s with buf := (b :: buf).drop n })
  | .sending incoming, _ :: _, none =>
    (.givenUp incoming, { client := (s.client.step (.send false)).2 })
  | _, _, _ => (.quiet, s)

def stepLeave (s : SendStream) : Event × SendStream :=
  match s.client.process, s.buf with
  | .sending incoming, [] => (.completed incoming, { client := (s.client.step (.send true)).2 })
  | _, _ => (.quiet, s)

def step (s : SendStream) : Op → Event × SendStream
  | .outside op => s.stepOutside op
  | .send sent => s.stepSend sent
  | .leave => s.stepLeave

/-- The bytes of each connection, the current one last. What comes before the first connection
counts as one without bytes. -/
def streams (current : List UInt8) : List Event → List (List UInt8)
  | [] => [current]
  | .opened :: events => current :: streams [] events
  | .bytes sent :: events => streams (current ++ sent) events
  | _ :: events => streams current events

def Event.submission : Event → List (List UInt8)
  | .submitted buffer => [buffer]
  | _ => []

def Event.completion : Event → List (List UInt8)
  | .completed buffer => [buffer]
  | _ => []

def Event.handover : Event → List (List UInt8)
  | .completed buffer | .givenUp buffer => [buffer]
  | _ => []

def submissions (ops : List Op) : List (List UInt8) :=
  (Mealy.outputs step {} ops).flatMap Event.submission

def completions (ops : List Op) : List (List UInt8) :=
  (Mealy.outputs step {} ops).flatMap Event.completion

/-- A buffer that is sent to its end while the thread is still in the loop. -/
def landed (s : SendStream) : List (List UInt8) :=
  match s.client.process, s.buf with
  | .sending incoming, [] => [incoming]
  | _, _ => []

def held (s : SendStream) : List (List UInt8) :=
  s.client.process.inFlight ++ s.client.queue.theQueue

/-! ## The order of the buffers -/

open List in
theorem sublist_step (client : TCPSendClient (List UInt8))
    (op : TCPSendClient.Op (List UInt8)) :
    (client.step op).1.handover ++ ((client.step op).2.process.inFlight ++
      (client.step op).2.queue.theQueue) <+
        (client.process.inFlight ++ client.queue.theQueue) ++ (client.step op).1.submission := by
  rw [← append_assoc, ← TCPSendClient.inFlight_step, append_assoc, append_assoc,
    TCPSendClient.queue_step]
  exact (((TCPSendClient.taking_sublist_removal _).append_right _).append_left _)

@[simp] theorem handover_ofClient (e : TCPSendClient.Event (List UInt8)) :
    (Event.ofClient e).handover = [] := by
  cases e <;> rfl

@[simp] theorem submission_ofClient (e : TCPSendClient.Event (List UInt8)) :
    (Event.ofClient e).submission = e.submission := by
  cases e <;> rfl

theorem held_send {s : SendStream} {incoming : List UInt8}
    (hprocess : s.client.process = .sending incoming) (succeeds : Bool) :
    incoming :: held { client := (s.client.step (.send succeeds)).2 } = s.held := by
  cases succeeds <;>
  simp [held, TCPSendClient.step, TCPSendClient.stepProcess, TCPSendClient.Process.inFlight,
    hprocess]

open List in
theorem held_step (s : SendStream) (op : Op) :
    (s.step op).1.handover ++ (s.step op).2.held <+ s.held ++ (s.step op).1.submission := by
  have hquiet : Event.quiet.handover ++ s.held <+ s.held ++ Event.quiet.submission := by
    simp [Event.handover, Event.submission]
  cases op with
  | outside op =>
    have hstep := (sublist_append_right _ _).trans (sublist_step s.client op)
    simp only [step]
    fun_cases stepOutside s op with
    | case1 => exact hquiet
    | case2 succeeds =>
      have hconnect := s.client.submission_stepProcess (.connect succeeds)
      rw [TCPSendClient.step, hconnect] at hstep
      split <;> exact hstep
    | case3 =>
      rw [handover_ofClient, submission_ofClient]
      exact hstep
  | send sent =>
    simp only [step]
    fun_cases stepSend s sent with
    | case1 => exact hquiet
    | case2 incoming _ _ _ hprocess =>
      have hheld := held_send hprocess false
      simp [Event.handover, Event.submission, hheld]
    | case3 => exact hquiet
  | leave =>
    simp only [step]
    fun_cases stepLeave s with
    | case1 incoming _ hprocess =>
      have hheld := held_send hprocess true
      simp [Event.handover, Event.submission, hheld]
    | case2 => exact hquiet

open List in
theorem held_run (s : SendStream) (ops : List Op) :
    (Mealy.outputs step s ops).flatMap Event.handover ++ (Mealy.state step s ops).held <+
      s.held ++ (Mealy.outputs step s ops).flatMap Event.submission := by
  induction ops generalizing s with
  | nil => simp
  | cons op ops ih =>
    rw [Mealy.outputs_cons, flatMap_cons, flatMap_cons, Mealy.state_cons, append_assoc]
    calc _ <+ (s.step op).1.handover ++ ((s.step op).2.held ++ _) := (ih _).append_left _
      _ = ((s.step op).1.handover ++ (s.step op).2.held) ++ _ := (append_assoc ..).symm
      _ <+ (s.held ++ (s.step op).1.submission) ++ _ := (held_step s op).append_right _
      _ = _ := append_assoc ..

/-! ## The bytes of a connection -/

section

variable {framing : Framing UInt8}

/-- What the bytes behind the last complete buffer of the connection are: the part of a buffer
that was sent, as long as the thread is in the loop, and no complete buffer otherwise. -/
def Trails (framing : Framing UInt8) (s : SendStream) (torn : List UInt8) : Prop :=
  match s.client.process with
  | .sending incoming => torn ++ s.buf = incoming
  | .popping => torn = []
  | .looping => (s.client.isConnected = true → torn = []) ∧ framing.Incomplete torn
  | .connecting | .finished => framing.Incomplete torn

/-- How the bytes of the connection go on in a step. -/
def GoesOn (framing : Framing UInt8) (torn : List UInt8) (e : Event) (s : SendStream) : Prop :=
  match e with
  | .opened => framing.Incomplete torn ∧ Trails framing s []
  | .bytes sent => Trails framing s (torn ++ sent)
  | .completed buffer => torn = buffer ∧ Trails framing s []
  | _ => Trails framing s torn

theorem goesOn_ofClient {torn : List UInt8} {e : TCPSendClient.Event (List UInt8)}
    {s : SendStream} : GoesOn framing torn (.ofClient e) s ↔ Trails framing s torn := by
  cases e <;> rfl

theorem keeps_stepProducer (client : TCPSendClient (List UInt8))
    (op : TCPSendClient.Op (List UInt8)) (buf : List UInt8) :
    (client.stepProducer op).2.process = client.process ∧
      (client.stepProducer op).2.isConnected = client.isConnected ∧
      entered buf (client.stepProducer op).1 = buf := by
  fun_cases TCPSendClient.stepProducer client op with
  | case6 =>
    refine ⟨rfl, rfl, ?_⟩
    cases client.queue.tryPop.1 <;> rfl
  | _ => exact ⟨rfl, rfl, rfl⟩

theorem Trails.stepProducer {s : SendStream} {torn : List UInt8} (h : Trails framing s torn)
    (op : TCPSendClient.Op (List UInt8)) :
    Trails framing { client := (s.client.stepProducer op).2
                     buf := entered s.buf (s.client.stepProducer op).1 } torn := by
  obtain ⟨hprocess, hconnected, hbuf⟩ := keeps_stepProducer s.client op s.buf
  rw [hbuf]
  unfold Trails at h ⊢
  rwa [hprocess, hconnected]

theorem Trails.stepProcess {s : SendStream} {torn : List UInt8} (h : Trails framing s torn)
    {op : TCPSendClient.Op (List UInt8)} (hconnect : ∀ succeeds, op ≠ .connect succeeds)
    (hsend : ∀ succeeds, op ≠ .send succeeds) :
    Trails framing { client := (s.client.stepProcess op).2
                     buf := entered s.buf (s.client.stepProcess op).1 } torn := by
  fun_cases TCPSendClient.stepProcess s.client op with
  | case1 hprocess hrunning =>
    simp only [Trails, hprocess] at h
    cases hconnected : s.client.isConnected with
    | false => exact h.2
    | true => exact h.1 hconnected
  | case2 hprocess hrunning =>
    simp only [Trails, hprocess] at h
    exact h.2
  | case3 succeeds => exact absurd rfl (hconnect succeeds)
  | case4 hprocess hpop => exact h
  | case5 hprocess incoming queue hpop =>
    simp only [Trails, hprocess] at h
    subst h
    rfl
  | case6 hprocess queue hpop =>
    simp only [Trails, hprocess] at h
    subst h
    exact Framing.incomplete_nil
  | case7 what hprocess =>
    simp only [Trails, hprocess] at h
    subst h
    exact Framing.incomplete_nil
  | case8 => exact absurd rfl (hsend _)
  | case9 => exact absurd rfl (hsend _)
  | case10 => exact h

theorem Trails.connect {s : SendStream} {torn : List UInt8} (h : Trails framing s torn)
    (succeeds : Bool) :
    GoesOn framing torn (s.stepOutside (.connect succeeds)).1
      (s.stepOutside (.connect succeeds)).2 := by
  simp only [stepOutside, TCPSendClient.step]
  cases hprocess : s.client.process with
  | connecting =>
    simp only [Trails, hprocess] at h
    cases succeeds with
    | false => simpa [GoesOn, Trails, TCPSendClient.stepProcess, hprocess] using h
    | true =>
      simpa [GoesOn, Trails, TCPSendClient.stepProcess, hprocess, Framing.incomplete_nil] using h
  | _ => simpa [GoesOn, TCPSendClient.stepProcess, hprocess] using h

theorem Trails.outside {s : SendStream} {torn : List UInt8} (h : Trails framing s torn)
    (op : TCPSendClient.Op (List UInt8)) :
    GoesOn framing torn (s.stepOutside op).1 (s.stepOutside op).2 := by
  cases op with
  | send succeeds => exact h
  | connect succeeds => exact h.connect succeeds
  | loop | waitAndPop | fail => exact goesOn_ofClient.mpr (h.stepProcess nofun nofun)
  | sendall | push | size | tryPop | destroy | triggerWakeup =>
    exact goesOn_ofClient.mpr (h.stepProducer _)

theorem Trails.step {s : SendStream} {torn : List UInt8} (h : Trails framing s torn)
    (hheld : ∀ buffer ∈ s.held, framing.Delimited buffer) (op : Op) :
    GoesOn framing torn (s.step op).1 (s.step op).2 := by
  have hinside {incoming : List UInt8} (hprocess : s.client.process = .sending incoming) :
      torn ++ s.buf = incoming := by
    simpa only [Trails, hprocess] using h
  cases op with
  | outside op => exact h.outside op
  | send sent =>
    simp only [SendStream.step]
    fun_cases stepSend s sent with
    | case1 incoming b buf n hbuf hprocess =>
      have htorn := hinside hprocess
      simp only [GoesOn, Trails, hprocess]
      rwa [List.append_assoc, List.take_append_drop, ← hbuf]
    | case2 incoming _ _ hbuf hprocess =>
      have hmissing : s.buf ≠ [] := by simp [hbuf]
      have htorn := hinside hprocess
      have hdelimited : framing.Delimited incoming :=
        hheld incoming (by simp [held, hprocess, TCPSendClient.Process.inFlight])
      have hincomplete := Framing.incomplete_of_append (htorn ▸ hdelimited) hmissing
      simpa [GoesOn, Trails, TCPSendClient.step, TCPSendClient.stepProcess, hprocess]
        using hincomplete
    | case3 => exact h
  | leave =>
    simp only [SendStream.step]
    fun_cases stepLeave s with
    | case1 incoming hbuf hprocess =>
      have htorn := hinside hprocess
      rw [hbuf, List.append_nil] at htorn
      refine ⟨htorn, ?_⟩
      simp [Trails, TCPSendClient.step, TCPSendClient.stepProcess, hprocess,
        Framing.incomplete_nil]
    | case2 => exact h

theorem Trails.packets {s : SendStream} {torn : List UInt8} (h : Trails framing s torn)
    (hheld : ∀ buffer ∈ s.held, framing.Delimited buffer) {whole : List (List UInt8)}
    (hwhole : ∀ buffer ∈ whole, framing.Delimited buffer) :
    framing.packets (whole.flatten ++ torn) = whole ++ s.landed := by
  have hincomplete (htorn : framing.Incomplete torn) :
      framing.packets (whole.flatten ++ torn) = whole ++ [] := by
    rw [Framing.packets_append hwhole htorn, List.append_nil]
  cases hprocess : s.client.process with
  | sending incoming =>
    have hdelimited : framing.Delimited incoming :=
      hheld incoming (by simp [held, hprocess, TCPSendClient.Process.inFlight])
    simp only [Trails, hprocess] at h
    cases hbuf : s.buf with
    | nil =>
      rw [hbuf, List.append_nil] at h
      have hall : ∀ buffer ∈ whole ++ [incoming], framing.Delimited buffer :=
        List.forall_mem_append.mpr ⟨hwhole, List.forall_mem_singleton.mpr hdelimited⟩
      have hpackets := Framing.packets_append hall Framing.incomplete_nil
      simpa [landed, hprocess, hbuf, h] using hpackets
    | cons b buf =>
      have hlanded : s.landed = [] := by simp [landed, hprocess, hbuf]
      rw [hlanded]
      exact hincomplete (Framing.incomplete_of_append (h ▸ hdelimited) (by simp [hbuf]))
  | popping =>
    have hlanded : s.landed = [] := by simp [landed, hprocess]
    simp only [Trails, hprocess] at h
    rw [hlanded]
    exact hincomplete (h ▸ Framing.incomplete_nil)
  | looping =>
    have hlanded : s.landed = [] := by simp [landed, hprocess]
    simp only [Trails, hprocess] at h
    rw [hlanded]
    exact hincomplete h.2
  | connecting | finished =>
    have hlanded : s.landed = [] := by simp [landed, hprocess]
    simp only [Trails, hprocess] at h
    rw [hlanded]
    exact hincomplete h

/-! ## What a receiver gets -/

/-- A receiver that takes packets off the connections to their ends gets the buffers that were
sent to theirs. -/
theorem packets_streams {s : SendStream} {torn : List UInt8} (h : Trails framing s torn)
    (hheld : ∀ buffer ∈ s.held, framing.Delimited buffer) (ops : List Op)
    (hsubmitted : ∀ buffer ∈ (Mealy.outputs SendStream.step s ops).flatMap Event.submission,
      framing.Delimited buffer)
    {whole : List (List UInt8)} (hwhole : ∀ buffer ∈ whole, framing.Delimited buffer) :
    (streams (whole.flatten ++ torn) (Mealy.outputs SendStream.step s ops)).flatMap
        framing.packets =
      whole ++ (Mealy.outputs SendStream.step s ops).flatMap Event.completion ++
        (Mealy.state SendStream.step s ops).landed := by
  induction ops generalizing s torn whole with
  | nil =>
    have hpackets := h.packets hheld hwhole
    simpa [streams] using hpackets
  | cons op ops ih =>
    have hgoes := h.step hheld op
    have horder := held_step s op
    rw [Mealy.outputs_cons, List.flatMap_cons, List.forall_mem_append] at hsubmitted
    obtain ⟨hsubmission, hsubmitted⟩ := hsubmitted
    have hall : ∀ buffer ∈ (s.step op).1.handover ++ (s.step op).2.held,
        framing.Delimited buffer := fun buffer hmem =>
      List.forall_mem_append.mpr ⟨hheld, hsubmission⟩ buffer (horder.subset hmem)
    obtain ⟨hhandover, hheld'⟩ := List.forall_mem_append.mp hall
    rw [Mealy.outputs_cons, Mealy.state_cons, List.flatMap_cons]
    generalize (s.step op).2 = s', (s.step op).1 = e at hgoes hhandover hheld' hsubmitted ⊢
    cases e with
    | opened =>
      obtain ⟨htorn, hfresh⟩ := hgoes
      have hnone : ∀ buffer ∈ ([] : List (List UInt8)), framing.Delimited buffer := by simp
      have hrest := ih hfresh hheld' hsubmitted hnone
      simp only [List.flatten_nil, List.nil_append] at hrest
      rw [streams, List.flatMap_cons, Framing.packets_append hwhole htorn, hrest]
      simp [Event.completion]
    | bytes sent =>
      have hrest := ih hgoes hheld' hsubmitted hwhole
      rw [streams, List.append_assoc, hrest]
      rfl
    | completed buffer =>
      obtain ⟨rfl, hfresh⟩ := hgoes
      have hwhole' : ∀ buffer ∈ whole ++ [torn], framing.Delimited buffer :=
        List.forall_mem_append.mpr ⟨hwhole, hhandover⟩
      have hrest := ih hfresh hheld' hsubmitted hwhole'
      simpa [streams, Event.completion] using hrest
    | quiet | submitted | givenUp =>
      have hrest := ih hgoes hheld' hsubmitted hwhole
      simpa [streams, Event.completion] using hrest

theorem completion_sublist_handover (e : Event) : e.completion.Sublist e.handover := by
  cases e <;> simp [Event.completion, Event.handover]

theorem landed_sublist_held (s : SendStream) : s.landed.Sublist s.held := by
  fun_cases landed s with
  | case1 incoming hbuf hprocess => simp [held, hprocess, TCPSendClient.Process.inFlight]
  | case2 => exact List.nil_sublist _

open List in
theorem packets_arrived {arrived connections : List (List UInt8)}
    (h : List.Forall₂ (· <+: ·) arrived connections) :
    arrived.flatMap framing.packets <+ connections.flatMap framing.packets := by
  induction h with
  | nil => exact Sublist.refl _
  | cons hfirst _ ih =>
    rw [flatMap_cons, flatMap_cons]
    exact (Framing.packets_prefix hfirst).sublist.append ih

theorem received (framing : Framing UInt8) (ops : List Op)
    (hsubmitted : ∀ buffer ∈ submissions ops, framing.Delimited buffer) :
    let connections := streams [] (Mealy.outputs step {} ops)
    connections.flatMap framing.packets = completions ops ++ (Mealy.state step {} ops).landed ∧
      ∀ arrived, List.Forall₂ (· <+: ·) arrived connections →
        (arrived.flatMap framing.packets).Sublist (submissions ops) := by
  intro connections
  have hstart : Trails framing ({} : SendStream) [] := ⟨fun _ => rfl, Framing.incomplete_nil⟩
  have hnone : ∀ buffer ∈ ([] : List (List UInt8)), framing.Delimited buffer := by simp
  have hpackets := packets_streams hstart (by simp [held, TCPSendClient.Process.inFlight]) ops
    hsubmitted hnone
  simp only [List.flatten_nil, List.nil_append] at hpackets
  refine ⟨hpackets, fun arrived harrived => (packets_arrived harrived).trans ?_⟩
  have horder := held_run {} ops
  refine List.Sublist.trans ?_ horder
  rw [hpackets]
  exact (List.Sublist.flatMap_right _ fun e _ => completion_sublist_handover e).append
    (landed_sublist_held _)

end

end SendStream

end SourceCompanion.Socket
