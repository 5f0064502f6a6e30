import SourceCompanion.Handles.Ledger
import SourceCompanion.Run.Ends

/-! # Sockets that own a descriptor

A socket holds at most one descriptor. The operations are modelled with the calls that open and
close descriptors. A descriptor is named by the number of `::socket` calls that succeeded before,
which tells a descriptor from a later one with the same number.
-/

namespace SourceCompanion.Socket

inductive Thrown where
  | logicError (what : String)
  | runtimeError (what : String)
deriving DecidableEq

/-- A socket, without a descriptor when it is not valid. -/
structure TCPSocket where
  mSock : Option ℕ := none
deriving DecidableEq

structure Candidate where
  socket : Bool := true
  getFlags : Except String Unit := .ok ()
  setFlags : Except String Unit := .ok ()
  connect : Bool := true

namespace TCPSocket

def valid (this : TCPSocket) : Bool := this.mSock.isSome

def held (this : TCPSocket) : List ℕ := this.mSock.toList

def destroy (this : TCPSocket) (descriptors : Ledger) : Ledger :=
  match this.mSock with
  | none => descriptors
  | some sock => descriptors.close sock

/-- Move assignment, which takes the descriptor over and leaves the source of the move without. -/
def moveAssign (_this other : TCPSocket) : TCPSocket × TCPSocket :=
  ({ mSock := other.mSock }, { mSock := none })

/-- Assign a new socket, which is destroyed at the end of the statement. -/
def assignNew (this : TCPSocket) (descriptors : Ledger) : TCPSocket × Ledger :=
  let (this, temporary) := this.moveAssign {}
  (this, temporary.destroy descriptors)

def setNonblocking (candidate : Candidate) : Except String Unit :=
  match candidate.getFlags with
  | .error errstr => .error ("TCP: Could not get socket flags: " ++ errstr)
  | .ok _ =>
    match candidate.setFlags with
    | .error errstr => .error ("TCP: Could not set O_NONBLOCK: " ++ errstr)
    | .ok _ => .ok ()

def tryConnect (nonblock : Bool) : List Candidate → Ledger → Except String (Option ℕ) × Ledger
  | [], descriptors => (.ok none, descriptors)
  | candidate :: rest, descriptors =>
    if candidate.socket then
      let (sfd, descriptors) := descriptors.acquire
      match if nonblock then setNonblocking candidate else .ok () with
      | .error what => (.error what, descriptors.close sfd)
      | .ok _ =>
        if candidate.connect then (.ok (some sfd), descriptors)
        else tryConnect nonblock rest (descriptors.close sfd)
    else tryConnect nonblock rest descriptors

def connected : Except String (Option ℕ) → List ℕ
  | .ok (some sfd) => [sfd]
  | _ => []

def connect (this : TCPSocket) (addresses : Except String (List Candidate)) (nonblock : Bool)
    (descriptors : Ledger) : Except Thrown Unit × TCPSocket × Ledger :=
  if this.valid then
    (.error (.logicError "You may only connect an invalid TCPSocket"), this, descriptors)
  else
    match addresses with
    | .error gaiError =>
      (.error (.runtimeError ("getaddrinfo failed: " ++ gaiError)), this, descriptors)
    | .ok result =>
      match tryConnect nonblock result descriptors with
      | (.error what, descriptors) => (.error (.runtimeError what), this, descriptors)
      | (.ok none, descriptors) =>
        (.error (.runtimeError "Could not connect"), this, descriptors)
      | (.ok (some sfd), descriptors) => (.ok (), { mSock := some sfd }, descriptors)

section Lemmas

variable {this : TCPSocket} {descriptors : Ledger} {lost : List ℕ}

theorem valid_eq_false : this.valid = false ↔ this.held = [] := by
  cases h : this.mSock <;> simp [valid, held, h]

theorem destroy_accounts (h : descriptors.Accounts (this.held ++ lost)) :
    (this.destroy descriptors).Accounts lost := by
  unfold held at h
  unfold destroy
  cases hsock : this.mSock with
  | none => rwa [hsock] at h
  | some sock =>
    rw [hsock] at h
    exact h.close

theorem assignNew_accounts (h : descriptors.Accounts (this.held ++ lost)) :
    (this.assignNew descriptors).2.Accounts
      ((this.assignNew descriptors).1.held ++ (this.held ++ lost)) := h

theorem held_assignNew : (this.assignNew descriptors).1.held = [] := rfl

theorem tryConnect_accounts (nonblock : Bool) (candidates : List Candidate)
    (h : descriptors.Accounts lost) :
    (tryConnect nonblock candidates descriptors).2.Accounts
      (connected (tryConnect nonblock candidates descriptors).1 ++ lost) := by
  induction candidates generalizing descriptors with
  | nil => exact h
  | cons candidate rest ih =>
    unfold tryConnect
    by_cases hsocket : candidate.socket
    · rw [if_pos hsocket]
      cases hflags : if nonblock then setNonblocking candidate else Except.ok () with
      | error what => exact h.acquire.close
      | ok _ =>
        cases hconnect : candidate.connect with
        | true => exact h.acquire
        | false => exact ih h.acquire.close
    · rw [if_neg hsocket]
      exact ih h

/-- A socket without descriptor connects, or throws a `runtime_error` and stays without. -/
theorem connect_cases (hvalid : this.valid = false) (h : descriptors.Accounts lost)
    (addresses : Except String (List Candidate)) (nonblock : Bool) :
    (∃ sfd descriptors', this.connect addresses nonblock descriptors =
        (.ok (), { mSock := some sfd }, descriptors') ∧ descriptors'.Accounts (sfd :: lost)) ∨
      ∃ what descriptors', this.connect addresses nonblock descriptors =
        (.error (.runtimeError what), this, descriptors') ∧ descriptors'.Accounts lost := by
  cases addresses with
  | error gaiError =>
    have hfailed : this.connect (.error gaiError) nonblock descriptors =
        (.error (.runtimeError ("getaddrinfo failed: " ++ gaiError)), this, descriptors) := by
      simp [connect, hvalid]
    exact Or.inr ⟨_, _, hfailed, h⟩
  | ok result =>
    simp only [connect, hvalid, Bool.false_eq_true, if_false]
    have htry := tryConnect_accounts nonblock result h
    generalize tryConnect nonblock result descriptors = tried at htry ⊢
    rcases tried with ⟨_ | _ | sfd, descriptors'⟩
    · exact Or.inr ⟨_, _, rfl, htry⟩
    · exact Or.inr ⟨_, _, rfl, htry⟩
    · exact Or.inl ⟨sfd, _, rfl, htry⟩

end Lemmas

end TCPSocket

end SourceCompanion.Socket
