import SourceCompanion.Socket.SendClient
import SourceCompanion.Socket.TCPSocket

/-! # The descriptors of the sending client

The sending client with its socket. The steps are those of the client, where connecting goes
through the addresses of the host, and the destructor of the socket at the end.
-/

namespace SourceCompanion.Socket

/-- Whether the client exists, was destroyed, or took the program down with an exception that
nobody catches. -/
inductive OwningClient.Life where
  | alive
  | destroyed
  | terminated
deriving DecidableEq

/-- The client, its socket, and the descriptors of the system that it opened. -/
structure OwningClient (T : Type*) where
  client : TCPSendClient T := {}
  mSock : TCPSocket := {}
  descriptors : Ledger := {}
  life : OwningClient.Life := .alive
deriving DecidableEq

namespace OwningClient

variable {T : Type*}

inductive Op (T : Type*) where
  | connect (addresses : Except String (List Candidate))
  | destruct
  | client (op : TCPSendClient.Op T)

/-- The thread connects the socket. It catches a `runtime_error` only. -/
def stepConnect (s : OwningClient T) (addresses : Except String (List Candidate)) :
    OwningClient T :=
  match s.mSock.connect addresses false s.descriptors with
  | (.ok (), mSock, descriptors) =>
    { s with client := (s.client.step (.connect true)).2, mSock, descriptors }
  | (.error (.runtimeError _), mSock, descriptors) =>
    { s with client := (s.client.step (.connect false)).2, mSock, descriptors }
  | (.error (.logicError _), mSock, descriptors) =>
    { s with mSock, descriptors, life := .terminated }

/-- A step of the client. A new socket takes the place of the one that could not send. -/
def stepClient (s : OwningClient T) (op : TCPSendClient.Op T) : OwningClient T :=
  match s.client.process, op with
  -- What connecting ends with is decided by the addresses.
  | _, .connect _ => s
  | .sending _, .send false =>
    { s with
      client := (s.client.step op).2
      mSock := (s.mSock.assignNew s.descriptors).1
      descriptors := (s.mSock.assignNew s.descriptors).2 }
  | _, _ => { s with client := (s.client.step op).2 }

def step (s : OwningClient T) (op : Op T) : Unit × OwningClient T :=
  match s.life, op, s.client.process, s.client.producer with
  | .alive, .connect addresses, .connecting, _ => ((), s.stepConnect addresses)
  | .alive, .client op, _, _ => ((), s.stepClient op)
  -- The thread is joined before the members are destroyed.
  | .alive, .destruct, .finished, .joining =>
    ((), { s with descriptors := s.mSock.destroy s.descriptors, life := .destroyed })
  | _, _, _, _ => ((), s)

def after (ops : List (Op T)) : OwningClient T := Mealy.state step {} ops

def Op.sendFails : Op T → Bool
  | .client (.send false) => true
  | _ => false

def SendSucceeds (s : OwningClient T) (op : Op T) : Prop :=
  op.sendFails → s.client.process.inFlight = []

instance [DecidableEq T] (s : OwningClient T) (op : Op T) : Decidable (s.SendSucceeds op) :=
  inferInstanceAs (Decidable (_ → _))

/-- Connecting never meets a socket that has a descriptor. -/
def ConnectsInvalid (ops : List (Op T)) : Prop :=
  ∀ i, (after (ops.take i)).life ≠ .terminated ∧
    ((after (ops.take i)).client.process = .connecting → (after (ops.take i)).mSock.valid = false)

/-- No descriptor is closed twice, at most one is open between two steps, and the destructor leaves
none open. -/
def ClosesOnce (ops : List (Op T)) : Prop :=
  (∀ i, (after (ops.take i)).descriptors.closed.Nodup ∧
    (after (ops.take i)).descriptors.live.length ≤ 1) ∧
  ((after ops).life = .destroyed → (after ops).descriptors.Settled)

/-- Where the thread is tells whether the client is connected. -/
structure AtPhase (s : TCPSendClient T) : Prop where
  connecting : s.process = .connecting → s.isConnected = false
  popping : s.process = .popping → s.isConnected = true
  sending : s.process.inFlight ≠ [] → s.isConnected = true

section Phases

variable {s : TCPSendClient T}

theorem atPhase_stepProducer (h : AtPhase s) (op : TCPSendClient.Op T) :
    AtPhase (s.stepProducer op).2 := by
  fun_cases TCPSendClient.stepProducer s op with
  | _ => exact ⟨h.connecting, h.popping, h.sending⟩

theorem atPhase_stepProcess (h : AtPhase s) (op : TCPSendClient.Op T) :
    AtPhase (s.stepProcess op).2 := by
  fun_cases TCPSendClient.stepProcess s op with
  | case1 =>
    cases hconnected : s.isConnected with
    | true => constructor <;> simp [TCPSendClient.Process.inFlight]
    | false => constructor <;> simp [TCPSendClient.Process.inFlight]
  | case4 => exact h
  | case5 hprocess => constructor <;> simp [h.popping hprocess]
  | case10 => exact h
  | _ => constructor <;> simp [TCPSendClient.Process.inFlight]

theorem atPhase_step (h : AtPhase s) (op : TCPSendClient.Op T) : AtPhase (s.step op).2 := by
  unfold TCPSendClient.step
  split
  all_goals first | exact atPhase_stepProducer h _ | exact atPhase_stepProcess h _

/-- Only connecting and a send that fails change whether the client is connected. -/
theorem isConnected_step {op : TCPSendClient.Op T} (hconnect : ∀ succeeds, op ≠ .connect succeeds)
    (hsend : op = .send false → s.process.inFlight = []) :
    (s.step op).2.isConnected = s.isConnected := by
  have hproducer : (s.stepProducer op).2.isConnected = s.isConnected := by
    fun_cases TCPSendClient.stepProducer s op <;> rfl
  have hprocess : (s.stepProcess op).2.isConnected = s.isConnected := by
    fun_cases TCPSendClient.stepProcess s op with
    | case3 succeeds => exact absurd rfl (hconnect succeeds)
    | case9 incoming succeeds hprocess hfails =>
      rw [Bool.not_eq_true] at hfails
      have hflight := hsend (congrArg _ hfails)
      rw [hprocess] at hflight
      exact absurd hflight (List.cons_ne_nil _ _)
    | _ => rfl
  unfold TCPSendClient.step
  split
  all_goals first | exact hproducer | exact hprocess

end Phases

def held (s : OwningClient T) : List ℕ :=
  match s.life with
  | .destroyed => []
  | _ => s.mSock.held

/-- The descriptors that the socket gives up in a step without closing them. -/
def overwritten (s : OwningClient T) (op : Op T) : List ℕ :=
  match op, s.client.process with
  | .client (.send false), .sending _ => s.mSock.held
  | _, _ => []

/-- The socket has a descriptor exactly while the client is connected, and every descriptor was
closed once, is held by the client or is lost. -/
structure Accounted (lost : List ℕ) (s : OwningClient T) : Prop where
  phase : AtPhase s.client
  valid : s.mSock.valid = s.client.isConnected
  accounts : s.descriptors.Accounts (s.held ++ lost)
  life : s.life ≠ .terminated
  finished : s.life = .destroyed → s.client.process = .finished

section Steps

variable {s : OwningClient T} {lost : List ℕ}

theorem accounted_new : Accounted [] ({} : OwningClient T) := by
  refine ⟨⟨?_, ?_, ?_⟩, rfl, Ledger.accounts_nil, ?_, ?_⟩
  all_goals simp [TCPSendClient.Process.inFlight]

theorem held_of_alive (h : s.life = .alive) : s.held = s.mSock.held := by
  unfold held
  rw [h]

theorem sendFails_iff {op : Op T} : op.sendFails = true ↔ op = .client (.send false) := by
  unfold Op.sendFails
  split
  · simp
  · simpa

theorem sendSucceeds_of_ne {op : Op T}
    (h : ∀ incoming, s.client.process = .sending incoming → op ≠ .client (.send false)) :
    s.SendSucceeds op := by
  intro hfails
  cases hprocess : s.client.process with
  | sending incoming => exact absurd (sendFails_iff.mp hfails) (h incoming hprocess)
  | _ => rfl

theorem overwritten_of_sendSucceeds {op : Op T} (h : s.SendSucceeds op) :
    s.overwritten op = [] := by
  unfold overwritten
  split
  · rename_i hprocess
    have hflight := h rfl
    rw [hprocess] at hflight
    cases hflight
  · rfl

theorem overwritten_eq_nil_iff (h : Accounted lost s) (op : Op T) :
    s.overwritten op = [] ↔ s.SendSucceeds op := by
  constructor
  · intro hlost
    apply sendSucceeds_of_ne
    rintro incoming hprocess rfl
    have hconnected : s.client.isConnected = true := h.phase.sending (by
      simp [hprocess, TCPSendClient.Process.inFlight])
    have hheld : s.mSock.held = [] := by simpa [overwritten, hprocess] using hlost
    rw [← h.valid, TCPSocket.valid_eq_false.mpr hheld] at hconnected
    cases hconnected
  · exact overwritten_of_sendSucceeds

theorem accounted_stepConnect (h : Accounted lost s) (halive : s.life = .alive)
    (hprocess : s.client.process = .connecting) (addresses : Except String (List Candidate)) :
    Accounted lost (s.stepConnect addresses) := by
  have hconnected (succeeds : Bool) :
      (s.client.step (.connect succeeds)).2.isConnected = succeeds := by
    simp [TCPSendClient.step, TCPSendClient.stepProcess, hprocess]
  have hvalid : s.mSock.valid = false := h.valid.trans (h.phase.connecting hprocess)
  have haccounts : s.descriptors.Accounts lost := by
    have haccounts := h.accounts
    rwa [held_of_alive halive, TCPSocket.valid_eq_false.mp hvalid] at haccounts
  unfold stepConnect
  rcases TCPSocket.connect_cases hvalid haccounts addresses false with
    ⟨sfd, descriptors, hresult, hsfd⟩ | ⟨what, descriptors, hresult, hlost⟩
  · rw [hresult]
    refine ⟨atPhase_step h.phase _, (hconnected true).symm, ?_, h.life, ?_⟩
    · simpa [held, halive, TCPSocket.held] using hsfd
    · simp [halive]
  · rw [hresult]
    refine ⟨atPhase_step h.phase _, hvalid.trans (hconnected false).symm, ?_, h.life, ?_⟩
    · simpa [held, halive, TCPSocket.valid_eq_false.mp hvalid] using hlost
    · simp [halive]

theorem accounted_stepClient (h : Accounted lost s) (halive : s.life = .alive)
    (op : TCPSendClient.Op T) :
    Accounted (s.overwritten (.client op) ++ lost) (s.stepClient op) := by
  have haccounts := h.accounts
  rw [held_of_alive halive] at haccounts
  fun_cases stepClient s op with
  | case1 => exact h
  | case2 incoming hprocess =>
    have hlost : s.overwritten (.client (.send false)) = s.mSock.held := by
      simp [overwritten, hprocess]
    rw [hlost]
    refine ⟨atPhase_step h.phase _, ?_, ?_, h.life, ?_⟩
    · rw [TCPSocket.valid_eq_false.mpr TCPSocket.held_assignNew]
      simp [TCPSendClient.step, TCPSendClient.stepProcess, hprocess]
    · simpa only [held, halive] using TCPSocket.assignNew_accounts haccounts
    · simp [halive]
  | case3 _ hconnect hsend =>
    have hsucceeds : s.SendSucceeds (.client op) := sendSucceeds_of_ne (by
      rintro incoming hprocess ⟨⟩
      exact hsend incoming hprocess rfl)
    have hflight : op = .send false → s.client.process.inFlight = [] := by
      rintro rfl
      exact hsucceeds rfl
    rw [overwritten_of_sendSucceeds hsucceeds]
    refine ⟨atPhase_step h.phase _, ?_, ?_, h.life, ?_⟩
    · exact h.valid.trans (isConnected_step hconnect hflight).symm
    · simpa [held, halive] using haccounts
    · simp [halive]

/-- What a step overwrites is lost, and nothing else. -/
theorem accounted_step (h : Accounted lost s) (op : Op T) :
    Accounted (s.overwritten op ++ lost) (s.step op).2 := by
  fun_cases step s op with
  | case1 addresses hprocess halive => exact accounted_stepConnect h halive hprocess addresses
  | case2 op halive => exact accounted_stepClient h halive op
  | case3 _ hprocess halive =>
    have haccounts := h.accounts
    rw [held_of_alive halive] at haccounts
    refine ⟨h.phase, h.valid, TCPSocket.destroy_accounts haccounts, ?_, fun _ => hprocess⟩
    exact nofun
  | case4 _ hclient =>
    have hsucceeds : s.SendSucceeds op := sendSucceeds_of_ne (by
      rintro incoming hprocess rfl
      cases hlife : s.life with
      | alive => exact hclient _ hlife rfl
      | destroyed =>
        rw [h.finished hlife] at hprocess
        cases hprocess
      | terminated => exact h.life hlife)
    rwa [overwritten_of_sendSucceeds hsucceeds]

theorem accounted_run (h : Accounted lost s) (ops : List (Op T)) :
    ∃ more, Accounted (more ++ lost) (Mealy.state step s ops) ∧
      (more = [] ↔ Mealy.Along step SendSucceeds s ops) := by
  induction ops generalizing s lost with
  | nil => exact ⟨[], h, by simp⟩
  | cons op ops ih =>
    obtain ⟨more, haccounted, hmore⟩ := ih (accounted_step h op)
    refine ⟨more ++ s.overwritten op, ?_, ?_⟩
    · rwa [List.append_assoc]
    · rw [Mealy.along_cons, List.append_eq_nil_iff, overwritten_eq_nil_iff h op, hmore, and_comm]

end Steps

theorem client_step (s : OwningClient T) (op : Op T) :
    (s.step op).2.client = s.client ∨ ∃ op', (s.step op).2.client = (s.client.step op').2 := by
  fun_cases step s op with
  | case1 addresses =>
    unfold stepConnect
    split
    · exact Or.inr ⟨_, rfl⟩
    · exact Or.inr ⟨_, rfl⟩
    · exact Or.inl rfl
  | case2 op =>
    fun_cases stepClient s op with
    | case1 => exact Or.inl rfl
    | case2 => exact Or.inr ⟨_, rfl⟩
    | case3 => exact Or.inr ⟨_, rfl⟩
  | case3 => exact Or.inl rfl
  | case4 => exact Or.inl rfl

theorem exists_client_run (s : OwningClient T) (ops : List (Op T)) :
    ∃ ops', (Mealy.state step s ops).client = Mealy.state TCPSendClient.step s.client ops' := by
  induction ops generalizing s with
  | nil => exact ⟨[], rfl⟩
  | cons op ops ih =>
    obtain ⟨ops', hclient⟩ := ih (s.step op).2
    rcases client_step s op with hstep | ⟨op', hstep⟩
    · exact ⟨ops', hstep ▸ hclient⟩
    · refine ⟨op' :: ops', ?_⟩
      rw [Mealy.state_cons, Mealy.state_cons, ← hstep, hclient]

theorem accounted_after (ops : List (Op T)) :
    ∃ lost, Accounted lost (after ops) ∧ (lost = [] ↔ Mealy.Along step SendSucceeds {} ops) := by
  obtain ⟨lost, haccounted, hlost⟩ := accounted_run accounted_new ops
  rw [List.append_nil] at haccounted
  exact ⟨lost, haccounted, hlost⟩

theorem held_length_le (s : OwningClient T) : s.held.length ≤ 1 := by
  unfold held TCPSocket.held
  split
  · exact Nat.zero_le 1
  · cases s.mSock.mSock with
    | none => exact Nat.zero_le 1
    | some sock => exact le_rfl

theorem connectsInvalid (ops : List (Op T)) : ConnectsInvalid ops := by
  intro i
  obtain ⟨lost, haccounted, -⟩ := accounted_after (ops.take i)
  refine ⟨haccounted.life, fun hprocess => ?_⟩
  exact haccounted.valid.trans (haccounted.phase.connecting hprocess)

theorem closesOnce {ops : List (Op T)} (h : Mealy.Along step SendSucceeds {} ops) :
    ClosesOnce ops := by
  constructor
  · intro i
    have htake : Mealy.Along step SendSucceeds {} (ops.take i) := by
      rw [← List.take_append_drop i ops, Mealy.along_append] at h
      exact h.1
    obtain ⟨lost, haccounted, hlost⟩ := accounted_after (ops.take i)
    obtain rfl := hlost.mpr htake
    refine ⟨haccounted.accounts.closed_nodup, ?_⟩
    rw [haccounted.accounts.length_live, List.append_nil]
    exact held_length_le _
  · intro hdestroyed
    obtain ⟨lost, haccounted, hlost⟩ := accounted_after ops
    obtain rfl := hlost.mpr h
    rw [haccounted.accounts.settled_iff]
    simp [held, hdestroyed]

/-- Connecting never meets a socket with a descriptor. If no send of the run fails, every descriptor
is closed at most once, at most one is open at a time, and all are closed at the end; and a run up
to the end of the destructor does so only if no send of it fails. -/
theorem closesOnce_iff (ops : List (Op T)) :
    ConnectsInvalid ops ∧ (Mealy.Along step SendSucceeds {} ops → ClosesOnce ops) ∧
      ((after ops).life = .destroyed →
        (ClosesOnce ops ↔ Mealy.Along step SendSucceeds {} ops)) := by
  refine ⟨connectsInvalid ops, closesOnce, fun hdestroyed => ⟨fun hcloses => ?_, closesOnce⟩⟩
  obtain ⟨lost, haccounted, hlost⟩ := accounted_after ops
  have hnone := haccounted.accounts.settled_iff.mp (hcloses.2 hdestroyed)
  exact hlost.mp (List.append_eq_nil_iff.mp hnone).2

/-- A connection, a buffer that is sent or not, another round of the thread, and the destructor. -/
def session (succeeds : Bool) (again : List (Op (List UInt8))) : List (Op (List UInt8)) :=
  [.client .loop, .connect (.ok [{ connect := false }, {}]), .client .loop,
    .client (.sendall [1]), .client .push, .client .size, .client .waitAndPop,
    .client (.send succeeds), .client .loop] ++ again ++
  [.client .destroy, .client .triggerWakeup, .client .waitAndPop, .destruct]

/-- After a send that fails, the client connects again and never closes the first connection. -/
theorem reconnect_loses_descriptor :
    ¬ ClosesOnce (session false [.connect (.ok [{}]), .client .loop]) := by
  intro h
  have hsettled := h.2 (by decide)
  revert hsettled
  decide

theorem closesOnce_sent :
    (after (session true [])).life = .destroyed ∧ ClosesOnce (session true []) := by
  have hdestroyed : (after (session true [])).life = .destroyed := by decide
  exact ⟨hdestroyed, ((closesOnce_iff _).2.2 hdestroyed).mpr (by decide)⟩

end OwningClient

end SourceCompanion.Socket
