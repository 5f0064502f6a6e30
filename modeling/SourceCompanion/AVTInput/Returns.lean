import SourceCompanion.AVTInput.Endpoint
import SourceCompanion.Run.Ends

/-! # Every call returns

The loops of a call end because each turn takes a datagram or a part away. This needs sockets that
do not wait, and the PAD socket is one only if it has been opened.
-/

namespace SourceCompanion.AVTInput.Endpoint

open Socket

/-- The reasons for which an operation does not return here: it is out of fuel, under some
condition, or a send fails. -/
def Stops (os : Os) (short : Prop) : Stop → Prop
  | .outOfFuel => short
  | .blocked => False
  | .runtimeError what => ∃ n packet, os.sendto n packet = some what

theorem Stops.mono {os : Os} {P Q : Prop} (h : P → Q) : ∀ e, Stops os P e → Stops os Q e
  | .outOfFuel => h
  | .blocked => False.elim
  | .runtimeError _ => id

/-- The configuration of the sockets stays, and no datagram arrives at the PAD socket. -/
structure Configured (s s' : Endpoint) : Prop where
  padPort : s'.padPort = s.padPort
  inputBlocking : s'.inputSocket.blocking = s.inputSocket.blocking
  padBlocking : s'.inputPadSocket.blocking = s.inputPadSocket.blocking
  port : s'.inputPadSocket.port = s.inputPadSocket.port
  pending : s'.inputPadSocket.pending.length ≤ s.inputPadSocket.pending.length

structure Kept (s s' : Endpoint) : Prop extends Configured s s' where
  input : s'.input = s.input
  inputSocket : s'.inputSocket = s.inputSocket

theorem Configured.refl (s : Endpoint) : Configured s s := ⟨rfl, rfl, rfl, rfl, le_rfl⟩

theorem Configured.trans {s t u : Endpoint} (h : Configured s t) (h' : Configured t u) :
    Configured s u where
  padPort := h'.padPort.trans h.padPort
  inputBlocking := h'.inputBlocking.trans h.inputBlocking
  padBlocking := h'.padBlocking.trans h.padBlocking
  port := h'.port.trans h.port
  pending := h'.pending.trans h.pending

theorem Configured.of_input {s s' : Endpoint} {input : AVTInput}
    (h : Configured { s with input } s') : Configured s s' :=
  ⟨h.padPort, h.inputBlocking, h.padBlocking, h.port, h.pending⟩

theorem Kept.refl (s : Endpoint) : Kept s s := ⟨.refl s, rfl, rfl⟩

theorem Kept.trans {s t u : Endpoint} (h : Kept s t) (h' : Kept t u) : Kept s u :=
  ⟨h.toConfigured.trans h'.toConfigured, h'.input.trans h.input,
    h'.inputSocket.trans h.inputSocket⟩

section Messages

variable (os : Os) {s : Endpoint}

theorem ends_send (packet : List UInt8) :
    Ends (Stops os False) (fun s' => Kept s s' ∧
      s'.inputPadSocket.pending = s.inputPadSocket.pending) (s.send os packet) := by
  unfold send orThrow
  cases h : os.sendto s.sent.length packet with
  | none => exact ⟨⟨⟨rfl, rfl, rfl, rfl, le_rfl⟩, rfl, rfl⟩, rfl⟩
  | some what => exact ⟨_, _, h⟩

theorem ends_interpretMessage (data : List UInt8) :
    Ends (Stops os False) (fun s' => Kept s s' ∧
      s'.inputPadSocket.pending = s.inputPadSocket.pending) (s.interpretMessage os data) := by
  unfold interpretMessage
  split
  · unfold sendPADFrame
    split
    · exact ⟨.refl s, rfl⟩
    · rename_i frame padFrameQueue hqueue
      have hkept : Kept s { s with padFrameQueue } := ⟨⟨rfl, rfl, rfl, rfl, le_rfl⟩, rfl, rfl⟩
      exact (ends_send os _).imp_post fun s' h => ⟨hkept.trans h.1, h.2⟩
  · exact ⟨.refl s, rfl⟩

theorem ends_sendCtrlMessage (s : Endpoint) :
    Ends (Stops os False) (Kept s) (s.sendCtrlMessage os) := by
  unfold sendCtrlMessage
  split
  · exact (ends_send os _).imp_post fun s' h => h.1
  · exact .refl s

theorem ends_receivePad (h : s.inputPadSocket.blocking = false) :
    Ends (fun _ => False) (fun r => Kept s r.2 ∧ (r.1 ≠ [] →
      r.2.inputPadSocket.pending.length < s.inputPadSocket.pending.length)) s.receivePad := by
  unfold receivePad UDPSocket.receive
  cases hpending : s.inputPadSocket.pending with
  | nil =>
    simp only [h, Bool.false_eq_true, if_false]
    exact ⟨.refl s, fun hne => absurd rfl hne⟩
  | cons datagram pending =>
    have hlt : pending.length < s.inputPadSocket.pending.length := by simp [hpending]
    exact ⟨⟨⟨rfl, rfl, rfl, rfl, hlt.le⟩, rfl, rfl⟩, fun _ => by simp⟩

theorem ends_checkMessage (h : s.inputPadSocket.blocking = false) :
    Ends (Stops os False) (fun r => Kept s r.2 ∧ (r.1 = true →
      r.2.inputPadSocket.pending.length < s.inputPadSocket.pending.length))
      (s.checkMessage os) := by
  apply ((ends_receivePad h).imp_reason fun _ => False.elim).bind
  rintro ⟨buffer, t⟩ ⟨hkept, hlt⟩
  dsimp only
  split
  · exact ⟨hkept, fun hf => (nomatch hf)⟩
  · rename_i hbuffer
    apply (ends_interpretMessage os buffer).bind
    rintro u ⟨hkept', hpending⟩
    refine ⟨hkept.trans hkept', fun _ => ?_⟩
    rw [hpending]
    exact hlt hbuffer

end Messages

theorem ends_readFrame {s : Endpoint} (h : s.inputSocket.blocking = false) :
    Ends (fun _ => False) (fun r => Configured s r.2 ∧
      (r.1 = false → s.input.readFrames s.inputSocket.pending = r.2.input) ∧
      (r.1 = true → r.2.inputSocket.pending.length < s.inputSocket.pending.length ∧
        s.input.readFrames s.inputSocket.pending =
          r.2.input.readFrames r.2.inputSocket.pending)) s.readFrame := by
  unfold readFrame UDPSocket.receive
  cases hpending : s.inputSocket.pending with
  | nil =>
    simp only [h, Bool.false_eq_true, if_false]
    exact ⟨.refl s, fun _ => rfl, fun hf => (nomatch hf)⟩
  | cons p pending =>
    obtain ⟨d, ts⟩ := p
    rw [AVTInput.readFrames]
    rcases hread : s.input.readFrame d ts with ⟨read, input⟩
    simp only [hread]
    refine ⟨⟨rfl, rfl, rfl, rfl, le_rfl⟩, ?_, ?_⟩
    · rintro rfl
      rfl
    · rintro rfl
      exact ⟨Nat.lt_succ_self _, rfl⟩

section Loops

variable (os : Os) {s : Endpoint}

theorem ends_drainMessages (h : s.inputPadSocket.blocking = false) (fuel : ℕ) :
    Ends (Stops os (fuel ≤ s.inputPadSocket.pending.length)) (Kept s)
      (drainMessages os fuel s) := by
  induction fuel generalizing s with
  | zero => exact Nat.zero_le _
  | succ fuel ih =>
    apply ((ends_checkMessage os h).imp_reason (Stops.mono False.elim)).bind
    rintro ⟨message, t⟩ ⟨hkept, hlt⟩
    cases message with
    | false => exact hkept
    | true =>
      apply (ih (hkept.padBlocking.trans h)).imp (Stops.mono fun hfuel => ?_) fun u => hkept.trans
      exact (Nat.succ_le_succ hfuel).trans (hlt rfl)

/-- The loop over both sockets ends, and the input reads its datagrams. -/
theorem ends_drain (hinput : s.inputSocket.blocking = false)
    (hpad : s.inputPadSocket.blocking = false) (fuel : ℕ) :
    Ends (Stops os (fuel ≤ s.inputPadSocket.pending.length + s.inputSocket.pending.length))
      (fun s' => Configured s s' ∧ s'.input = s.input.readFrames s.inputSocket.pending)
      (drain os fuel s) := by
  induction fuel generalizing s with
  | zero => exact Nat.zero_le _
  | succ fuel ih =>
    apply ((ends_checkMessage os hpad).imp_reason (Stops.mono False.elim)).bind
    rintro ⟨message, t⟩ ⟨hkept, hlt⟩
    dsimp only at hkept hlt
    cases message with
    | true =>
      have hrest := ih (hkept.inputBlocking.trans hinput) (hkept.padBlocking.trans hpad)
      rw [hkept.input, hkept.inputSocket] at hrest
      apply hrest.imp (Stops.mono fun hfuel => ?_) fun u hu =>
        ⟨hkept.toConfigured.trans hu.1, hu.2⟩
      have := hlt rfl
      omega
    | false =>
      have hread := ends_readFrame (hkept.inputBlocking.trans hinput)
      apply (hread.imp_reason fun _ => False.elim).bind
      rintro ⟨frame, u⟩ ⟨hconfigured, hdone, hread⟩
      dsimp only at hconfigured hdone hread
      rw [hkept.input, hkept.inputSocket] at hdone hread
      have hall := hkept.toConfigured.trans hconfigured
      cases frame with
      | false => exact ⟨hall, (hdone rfl).symm⟩
      | true =>
        obtain ⟨hlt, hrest⟩ := hread rfl
        apply (ih (hall.inputBlocking.trans hinput) (hall.padBlocking.trans hpad)).imp
          (Stops.mono fun hfuel => ?_) fun v hv => ⟨hall.trans hv.1, hv.2.trans hrest.symm⟩
        have := hall.pending
        omega

/-- The assembly loop ends, and assembles what the input assembles. -/
theorem ends_assemble (hpad : s.inputPadSocket.blocking = false) (fuel : ℕ) :
    Ends (Stops os (fuel ≤ s.inputPadSocket.pending.length + s.input.ordered.size +
        s.input.ordered.maxIndex.toNat))
      (fun s' => Configured s s' ∧ s'.input = assembleParts s.input.ordered.size s.input)
      (assemble os fuel s) := by
  induction fuel generalizing s with
  | zero => exact Nat.zero_le _
  | succ fuel ih =>
    rw [assembleParts_eq le_rfl (Nat.le_succ _), assembleParts, assemble]
    split
    · cases hpop : s.input.ordered.popLoop fuel with
      | none =>
        have hshort : fuel < s.input.ordered.maxIndex.toNat := by
          by_contra hle
          rw [OrderedQueue.popLoop_eq _ (Nat.not_lt.mp hle)] at hpop
          cases hpop
        change fuel + 1 ≤ _
        omega
      | some popped =>
        rw [OrderedQueue.eq_pop_of_popLoop hpop]
        rcases s.input.ordered.pop_cases with ⟨hnone, -⟩ | ⟨q', k, d, hsome, hq⟩
        · rw [hnone]
          exact ⟨⟨rfl, rfl, rfl, rfl, le_rfl⟩, rfl⟩
        · rw [hsome]
          dsimp only
          split
          · exact ⟨⟨rfl, rfl, rfl, rfl, le_rfl⟩, rfl⟩
          · have hsize := hq.size
            have hmessages := ends_drainMessages os
              (s := { s with input := { s.input with ordered := q' } }) hpad fuel
            apply (hmessages.imp_reason (Stops.mono fun hfuel => ?_)).bind
            · rintro t hkept
              have hpending := hkept.pending
              have hrest := ih (s := { t with input := { t.input with
                assembly := t.input.assembly.takePart k d } }) (hkept.padBlocking.trans hpad)
              simp only [hkept.input] at hrest hpending ⊢
              have hmax := hq.maxIndex
              refine hrest.imp (Stops.mono fun hfuel => ?_) fun u hu => ⟨?_, ?_⟩
              · rw [hmax] at hfuel
                omega
              · exact hkept.toConfigured.of_input.trans hu.1.of_input
              · exact hu.2.trans (assembleParts_eq le_rfl (by dsimp only; omega))
            · dsimp only at hfuel
              omega
    · exact ⟨.refl s, rfl⟩

/-- What a call works off: the datagrams at both sockets, the parts in the queue once they are
read, and one turn of its cycle. -/
def work (s : Endpoint) : ℕ :=
  s.inputPadSocket.pending.length + s.inputSocket.pending.length +
    (s.input.readFrames s.inputSocket.pending).ordered.size +
    (s.input.readFrames s.inputSocket.pending).ordered.maxIndex.toNat

theorem ends_getNextFrame (hinput : s.inputSocket.blocking = false)
    (hpad : s.inputPadSocket.blocking = false) (fuel bufSize : ℕ) :
    Ends (Stops os (fuel ≤ s.work))
      (fun r => Configured s r.2 ∧
        (r.1, r.2.input) = s.input.getNextFrame ⟨s.inputSocket.pending, bufSize⟩)
      (s.getNextFrame os fuel bufSize) := by
  apply ((ends_drain os hinput hpad fuel).imp_reason (Stops.mono fun hfuel => ?_)).bind
  · rintro t ⟨ht, hread⟩
    have hassemble := ends_assemble os (ht.padBlocking.trans hpad) fuel
    rw [hread] at hassemble
    apply (hassemble.imp_reason (Stops.mono fun hfuel => ?_)).bind
    · rintro u ⟨hu, hparts⟩
      refine ⟨ht.trans ⟨hu.padPort, hu.inputBlocking, hu.padBlocking, hu.port, hu.pending⟩, ?_⟩
      rw [hparts]
      rfl
    · have := ht.pending
      unfold work
      omega
  · unfold work
    omega

end Loops

/-- A call returns, unless the exception of a failed send leaves it. -/
def Returns (os : Os) (s : Endpoint) (bufSize : ℕ) : Prop :=
  ∃ fuel, (∃ result, s.getNextFrame os fuel bufSize = .ok result) ∨
    ∃ n packet what, os.sendto n packet = some what ∧
      s.getNextFrame os fuel bufSize = .error (.runtimeError what)

theorem returns_of_open {os : Os} {s : Endpoint} (hinput : s.inputSocket.blocking = false)
    (hpad : s.inputPadSocket.blocking = false) (bufSize : ℕ) : Returns os s bufSize := by
  refine ⟨s.work + 1, ?_⟩
  have hends := ends_getNextFrame os hinput hpad (s.work + 1) bufSize
  cases hcall : s.getNextFrame os (s.work + 1) bufSize with
  | ok result => exact Or.inl ⟨result, rfl⟩
  | error e =>
    rw [hcall] at hends
    cases e with
    | outOfFuel => exact absurd hends (Nat.not_succ_le_self _)
    | blocked => exact hends.elim
    | runtimeError what =>
      obtain ⟨n, packet, hsend⟩ := hends
      exact Or.inr ⟨n, packet, what, hsend, rfl⟩

theorem not_returns_of_blocking {os : Os} {s : Endpoint} (hpad : s.inputPadSocket.blocking = true)
    (hpending : s.inputPadSocket.pending = []) (bufSize : ℕ) : ¬ Returns os s bufSize := by
  have hreceive : s.receivePad = .error .blocked := by
    simp [receivePad, UDPSocket.receive, hpad, hpending]
  rintro ⟨fuel, hcall⟩
  have hstop : s.getNextFrame os fuel bufSize = .error .outOfFuel ∨
      s.getNextFrame os fuel bufSize = .error .blocked := by
    cases fuel with
    | zero => exact Or.inl rfl
    | succ fuel =>
      right
      simp only [getNextFrame, drain, checkMessage, hreceive]
      rfl
  rcases hstop with he | he <;> rw [he] at hcall <;>
    rcases hcall with ⟨_, h⟩ | ⟨_, _, _, -, h⟩ <;> cases h

/-- What holds of the sockets after `prepare`. -/
structure Prepared (padPort : UInt32) (s : Endpoint) : Prop where
  padPort_eq : s.padPort = padPort
  input : s.inputSocket.blocking = false
  opened : padPort ≠ 0 → s.inputPadSocket.blocking = false
  closed : padPort = 0 → s.inputPadSocket.blocking = true ∧ s.inputPadSocket.port = 0 ∧
    s.inputPadSocket.pending = []

theorem Prepared.of_configured {padPort : UInt32} {s s' : Endpoint} (h : Prepared padPort s)
    (hs : Configured s s') : Prepared padPort s' where
  padPort_eq := hs.padPort.trans h.padPort_eq
  input := hs.inputBlocking.trans h.input
  opened hp := hs.padBlocking.trans (h.opened hp)
  closed hp := by
    obtain ⟨hblocking, hport, hpending⟩ := h.closed hp
    have hlength := hs.pending
    rw [hpending] at hlength
    exact ⟨hs.padBlocking.trans hblocking, hs.port.trans hport,
      List.eq_nil_of_length_eq_zero (Nat.le_zero.mp hlength)⟩

section Prepare

variable (os : Os)

theorem ends_openSocketSrv {δ : Type} (socket : UDPSocket δ) (uri : List Char) :
    Ends (fun _ => True) (fun r => r.1 = 0 → r.2.blocking = false)
      (openSocketSrv os socket uri) := by
  unfold openSocketSrv
  split
  · exact fun h => nomatch h
  · rename_i address port _
    apply Ends.bind_of_forall fun _ => trivial
    intro socket
    have hlast : Ends (fun _ => True) (fun r => r.1 = 0 → r.2.blocking = false)
        (do orThrow os.setBlocking; return ((0 : ℤ), socket.setBlocking false)) :=
      Ends.bind_of_forall (fun _ => trivial) fun _ _ => rfl
    dsimp only
    split
    · exact Ends.bind_of_forall (fun _ => trivial) fun _ => hlast
    · exact hlast

theorem ends_purgeMessages {s : Endpoint} (h : s.inputPadSocket.blocking = false) (fuel : ℕ) :
    Ends (fun _ => True) (Kept s) (purgeMessages fuel s) := by
  induction fuel generalizing s with
  | zero => trivial
  | succ fuel ih =>
    apply ((ends_receivePad h).imp_reason fun _ _ => trivial).bind
    rintro ⟨buffer, t⟩ ⟨hkept, -⟩
    dsimp only at hkept ⊢
    split
    · exact hkept
    · exact (ih (hkept.padBlocking.trans h)).imp_post fun u => hkept.trans

theorem ends_preparePad {s : Endpoint} {ret : ℤ} (fuel : ℕ)
    (hinput : ret = 0 → s.inputSocket.blocking = false) (hnew : s.inputPadSocket = {}) :
    Ends (fun _ => True) (fun r => r.1 = 0 → Prepared s.padPort r.2)
      (s.preparePad os fuel ret) := by
  unfold preparePad
  split
  · rename_i hport
    apply (ends_openSocketSrv os s.inputPadSocket _).bind
    rintro ⟨ret', inputPadSocket⟩ hpad
    dsimp only at hpad ⊢
    by_cases hret : ret' = 0
    · have hpurge := ends_purgeMessages (s := { s with inputPadSocket }) (hpad hret) fuel
      apply hpurge.bind
      rintro t ht -
      exact ⟨ht.padPort, ht.inputBlocking.trans (hinput hport.1),
        fun _ => ht.padBlocking.trans (hpad hret),
        fun hzero => absurd hzero (UInt32.pos_iff_ne_zero.mp hport.2)⟩
    · exact Ends.bind_of_forall (fun _ => trivial) fun t hzero => absurd hzero hret
  · rename_i hport
    intro hret
    have hzero : s.padPort = 0 := by
      by_contra hne
      exact hport ⟨hret, UInt32.pos_iff_ne_zero.mpr hne⟩
    refine ⟨rfl, hinput hret, fun hne => absurd hzero hne, fun _ => ?_⟩
    rw [hnew]
    exact ⟨rfl, rfl, rfl⟩

theorem ends_prepare {s : Endpoint} (fuel : ℕ) (hnew : s.inputPadSocket = {}) :
    Ends (fun _ => True) (fun r => r.1 = 0 → Prepared s.padPort r.2) (s.prepare os fuel) := by
  apply (ends_openSocketSrv os s.inputSocket s.inputUri).bind
  rintro ⟨ret, inputSocket⟩ hinput
  dsimp only at hinput ⊢
  split
  · rename_i hret
    exact Ends.bind_of_forall (fun _ => trivial) fun ret' =>
      ends_preparePad os fuel (fun _ => hinput hret.1) hnew
  · exact ends_preparePad os fuel hinput hnew

theorem ends_setDabPlusParameters (s : Endpoint) (bitrate channels sampleRate : ℤ) (sbr ps : Bool) :
    Ends (fun _ => True) (fun r => Configured s r.2)
      (s.setDabPlusParameters os bitrate channels sampleRate sbr ps) := by
  unfold setDabPlusParameters
  dsimp only
  split
  · exact ⟨rfl, rfl, rfl, rfl, le_rfl⟩
  · split
    · exact ⟨rfl, rfl, rfl, rfl, le_rfl⟩
    · split
      · exact ⟨rfl, rfl, rfl, rfl, le_rfl⟩
      · apply ((ends_sendCtrlMessage os _).imp_reason fun _ _ => trivial).bind
        rintro t ht
        exact ⟨ht.padPort, ht.inputBlocking, ht.padBlocking, ht.port, ht.pending⟩

end Prepare

theorem pushPADFrame_eq (s : Endpoint) (buf : List UInt8) :
    ∃ padFrameQueue, s.pushPADFrame buf = { s with padFrameQueue } := by
  unfold pushPADFrame
  split_ifs
  · exact ⟨s.padFrameQueue, rfl⟩
  · exact ⟨s.padFrameQueue ++ [buf.reverse], rfl⟩
  · exact ⟨s.padFrameQueue, rfl⟩

/-- The states that are reached from one: datagrams arrive, at the PAD socket only if it is
bound, PAD frames are stored, parameters are set, and calls return. -/
inductive Reachable (os : Os) (start : Endpoint) : Endpoint → Prop where
  | start : Reachable os start start
  | arriveInput {s : Endpoint} (d : Datagram) (ts : ℤ) : Reachable os start s →
      Reachable os start { s with inputSocket := { s.inputSocket with
        pending := s.inputSocket.pending ++ [(d, ts)] } }
  | arrivePad {s : Endpoint} (d : List UInt8) : Reachable os start s →
      s.inputPadSocket.port ≠ 0 →
      Reachable os start { s with inputPadSocket := { s.inputPadSocket with
        pending := s.inputPadSocket.pending ++ [d] } }
  | pushPADFrame {s : Endpoint} (buf : List UInt8) : Reachable os start s →
      Reachable os start (s.pushPADFrame buf)
  | setDabPlusParameters {s s' : Endpoint} {ret bitrate channels sampleRate : ℤ} {sbr ps : Bool} :
      Reachable os start s →
      s.setDabPlusParameters os bitrate channels sampleRate sbr ps = .ok (ret, s') →
      Reachable os start s'
  | getNextFrame {s s' : Endpoint} {fuel bufSize : ℕ} {superframe : Option (List UInt8 × ℤ)} :
      Reachable os start s → s.getNextFrame os fuel bufSize = .ok (superframe, s') →
      Reachable os start s'

theorem Reachable.prepared {os : Os} {padPort : UInt32} {start s : Endpoint}
    (hs : Reachable os start s) (hstart : Prepared padPort start) : Prepared padPort s := by
  induction hs with
  | start => exact hstart
  | arriveInput d ts hs ih => exact ⟨ih.padPort_eq, ih.input, ih.opened, ih.closed⟩
  | arrivePad d hs hport ih =>
    exact ⟨ih.padPort_eq, ih.input, ih.opened, fun hp => absurd (ih.closed hp).2.1 hport⟩
  | pushPADFrame buf hs ih =>
    obtain ⟨padFrameQueue, hpush⟩ := pushPADFrame_eq _ buf
    rw [hpush]
    exact ⟨ih.padPort_eq, ih.input, ih.opened, ih.closed⟩
  | setDabPlusParameters hs hset ih =>
    rename_i s s' ret bitrate channels sampleRate sbr ps
    have hends := ends_setDabPlusParameters os s bitrate channels sampleRate sbr ps
    rw [hset] at hends
    exact ih.of_configured hends
  | getNextFrame hs hcall ih =>
    rename_i s s' fuel bufSize superframe
    by_cases hport : padPort = 0
    · obtain ⟨hblocking, -, hpending⟩ := ih.closed hport
      exact absurd ⟨fuel, Or.inl ⟨_, hcall⟩⟩ (not_returns_of_blocking hblocking hpending bufSize)
    · have hends := ends_getNextFrame os ih.input (ih.opened hport) fuel bufSize
      rw [hcall] at hends
      exact ih.of_configured hends.1

/-- In every state reached after a successful preparation a call returns, if and only if there is
a PAD port. -/
theorem returns_iff {os : Os} {inputUri outputUri : List Char} {padPort : UInt32}
    {jitterBufferSize fuel : ℕ} {bitrate channels sampleRate : ℤ} {sbr ps : Bool}
    {prepared start s : Endpoint}
    (hprepare : (new inputUri outputUri padPort jitterBufferSize).prepare os fuel =
      .ok (0, prepared))
    (hset : prepared.setDabPlusParameters os bitrate channels sampleRate sbr ps = .ok (0, start))
    (hs : Reachable os start s) (bufSize : ℕ) : Returns os s bufSize ↔ 0 < padPort := by
  have hends := ends_prepare os (s := new inputUri outputUri padPort jitterBufferSize) fuel rfl
  rw [hprepare] at hends
  have hconfigured := ends_setDabPlusParameters os prepared bitrate channels sampleRate sbr ps
  rw [hset] at hconfigured
  have hprepared := hs.prepared ((hends rfl).of_configured hconfigured)
  constructor
  · intro hreturns
    rw [UInt32.pos_iff_ne_zero]
    intro hport
    obtain ⟨hblocking, -, hpending⟩ := hprepared.closed hport
    exact not_returns_of_blocking hblocking hpending bufSize hreturns
  · intro hport
    exact returns_of_open hprepared.input (hprepared.opened (UInt32.pos_iff_ne_zero.mp hport))
      bufSize

def quietOs : Os := ⟨fun _ => none, fun _ => none, none, fun _ _ => none, fun _ _ => none⟩

theorem openSocketSrv_quietOs {δ : Type} (socket : UDPSocket δ) {uri : List Char} {port : ℤ}
    (h : parseURI uri = some ([], port)) :
    openSocketSrv quietOs socket uri = .ok (0, { port, blocking := false }) := by
  have hport : port ≠ 0 := (port_of_parseURI h).1.ne'
  simp [openSocketSrv, h, UDPSocket.reinit, hport, UDPSocket.setBlocking, orThrow, quietOs]
  rfl

def inputOn (padPort : UInt32) : Endpoint := new "udp://:32010".toList [] padPort 40

theorem parseURI_inputOn (padPort : UInt32) :
    parseURI (inputOn padPort).inputUri = some ([], 32010) := by
  change parseURI "udp://:32010".toList = some ([], 32010)
  decide +kernel

theorem prepare_inputOn_zero :
    (inputOn 0).prepare quietOs 1 =
      .ok (0, { inputOn 0 with inputSocket := { port := 32010, blocking := false } }) := by
  simp only [prepare, openSocketSrv_quietOs _ (parseURI_inputOn 0)]
  rfl

theorem prepare_inputOn_9000 :
    (inputOn 9000).prepare quietOs 1 =
      .ok (0, { inputOn 9000 with
        inputSocket := { port := 32010, blocking := false }
        inputPadSocket := { port := 9000, blocking := false } }) := by
  have huri : parseURI ("udp://:".toList ++
      (toString (inputOn 9000).padPort.toBitVec.toInt).toList) = some ([], 9000) := by
    decide +kernel
  simp only [prepare, openSocketSrv_quietOs _ (parseURI_inputOn 9000)]
  change preparePad quietOs 1 { inputOn 9000 with
    inputSocket := { port := 32010, blocking := false } } 0 = _
  have hport : (0 : ℤ) = 0 ∧ (inputOn 9000).padPort > 0 := ⟨rfl, by decide⟩
  rw [preparePad, if_pos hport]
  dsimp only
  rw [openSocketSrv_quietOs _ huri]
  rfl

/-- Without a PAD port the first call never returns. -/
theorem waits_without_padPort :
    ∃ start, (inputOn 0).prepare quietOs 1 =
        .ok (0, { inputOn 0 with inputSocket := { port := 32010, blocking := false } }) ∧
      { inputOn 0 with inputSocket := { port := 32010, blocking := false } }.setDabPlusParameters
        quietOs 64 2 48000 true false = .ok (0, start) ∧
      Reachable quietOs start start ∧ ¬ Returns quietOs start 960 :=
  ⟨_, prepare_inputOn_zero, rfl, .start, not_returns_of_blocking rfl rfl 960⟩

theorem returns_with_padPort :
    ∃ s : Endpoint, s.inputPadSocket.pending = [[0xFD, 0x17]] ∧
      s.inputSocket.pending.length = 1 ∧ Returns quietOs s 960 := by
  have hset : { inputOn 9000 with
      inputSocket := { port := 32010, blocking := false }
      inputPadSocket := { port := 9000, blocking := false } }.setDabPlusParameters
        quietOs 64 2 48000 true false = .ok (0, _) := rfl
  exact ⟨_, rfl, rfl, (returns_iff prepare_inputOn_9000 hset
    ((Reachable.start.arriveInput ⟨[1, 2], fun _ => 0⟩ 0).arrivePad [0xFD, 0x17] (by decide))
    960).mpr (by decide)⟩

end SourceCompanion.AVTInput.Endpoint
