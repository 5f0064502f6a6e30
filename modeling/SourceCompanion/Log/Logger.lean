import SourceCompanion.Run.Mealy
import SourceCompanion.Socket.ThreadsafeQueue

/-! # The logger

Any thread puts its messages into a queue. The thread of the logger takes them out one by one and
hands each to all backends, under the mutex that a registration takes as well. The destructor
wakes it up and leaves in the queue what is there.
-/

namespace SourceCompanion

inductive LogLevel where
  | debug
  | info
  | warn
  | error
  | alert
  | emerg
  | trace
  | discard
deriving DecidableEq

structure LogMessage where
  level : LogLevel
  message : String
deriving DecidableEq

/-- Where the thread is in `io_process`: before the queue, with a message before the mutex, under
the mutex before the call of a backend, or behind the loop. What the last character of an empty
message is, the language leaves undefined. -/
inductive Logger.Io where
  | waiting
  | popped (m : LogMessage)
  | delivering (m : LogMessage) (next : ℕ)
  | finished
  | undefined (m : LogMessage)
deriving DecidableEq

structure Logger (B : Type*) where
  backends : List B := []
  messageQueue : ThreadsafeQueue LogMessage := {}
  io : Logger.Io := .waiting
deriving DecidableEq

def LogMessage.trimmed (m : LogMessage) : LogMessage :=
  if m.message.toList.getLast? = some '\n' then
    { m with message := String.ofList m.message.toList.dropLast }
  else m

namespace Logger

variable {B : Type*}

/-- Calls of any threads, and the steps of the thread of the logger. The destructor triggers the
wakeup, and clears the backends when the thread is joined. -/
inductive Op (B : Type*) where
  | logstr (level : LogLevel) (message : String)
  | registerBackend (backend : B)
  | io
  | triggerWakeup
  | clear

inductive Event where
  | quiet
  | pushed (m : LogMessage)
  | begun (m : LogMessage)
  | logged (backend : ℕ) (m : LogMessage)
  | printed (m : LogMessage)

def stepIo (s : Logger B) : Event × Logger B :=
  match s.io with
  | .waiting =>
    match s.messageQueue.waitAndPop 1 with
    | none => (.quiet, s)
    | some (.value m, messageQueue) => (.quiet, { s with messageQueue, io := .popped m })
    | some (.wakeup, messageQueue) => (.quiet, { s with messageQueue, io := .finished })
  | .popped m =>
    if m.message = "" then (.quiet, { s with io := .undefined m })
    else (.begun m, { s with io := .delivering m.trimmed 0 })
  | .delivering m next =>
    if next < s.backends.length then
      (.logged next m, { s with io := .delivering m (next + 1) })
    else (if m.level = .trace then .quiet else .printed m, { s with io := .waiting })
  | .finished | .undefined _ => (.quiet, s)

def step (s : Logger B) : Op B → Event × Logger B
  | .logstr level message =>
    if level = .discard then (.quiet, s)
    else
      let m : LogMessage := { level, message }
      (.pushed m, { s with messageQueue := (s.messageQueue.push m 0).2 })
  | .registerBackend backend =>
    match s.io with
    -- The thread has the mutex.
    | .delivering _ _ => (.quiet, s)
    | _ => (.quiet, { s with backends := s.backends ++ [backend] })
  | .io => s.stepIo
  | .triggerWakeup => (.quiet, { s with messageQueue := s.messageQueue.triggerWakeup })
  | .clear => if s.io = .finished then (.quiet, { s with backends := [] }) else (.quiet, s)

def Event.push : Event → List LogMessage
  | .pushed m => [m]
  | _ => []

def Event.beginning : Event → List LogMessage
  | .begun m => [m]
  | _ => []

def Event.loggedTo (backend : ℕ) : Event → List LogMessage
  | .logged next m => if next = backend then [m] else []
  | _ => []

/-- The message that the thread took out of the queue and did not begin to hand out. -/
def Io.inHand : Io → List LogMessage
  | .popped m | .undefined m => [m]
  | _ => []

def held (s : Logger B) : List LogMessage := s.io.inHand ++ s.messageQueue.theQueue

/-- What a backend has still to get of the message that is handed out. -/
def owed (backend : ℕ) (s : Logger B) : List LogMessage :=
  match s.io with
  | .delivering m next => if next ≤ backend then [m] else []
  | _ => []

/-! ## The order of the messages -/

theorem held_stepIo (s : Logger B) :
    s.held ++ s.stepIo.1.push = s.stepIo.1.beginning ++ s.stepIo.2.held := by
  fun_cases stepIo s with
  | case2 hio m messageQueue hpop =>
    rcases ThreadsafeQueue.theQueue_waitAndPop hpop with ⟨_, heq, hqueue⟩ | ⟨heq, _⟩
    · cases heq
      simp [held, hio, Io.inHand, Event.push, Event.beginning, hqueue]
    · cases heq
  | case3 hio messageQueue hpop =>
    rcases ThreadsafeQueue.theQueue_waitAndPop hpop with ⟨_, heq, _⟩ | ⟨_, hqueue⟩
    · cases heq
    · simp [held, hio, Io.inHand, Event.push, Event.beginning, hqueue]
  | case7 m next hio =>
    split <;> simp [held, hio, Io.inHand, Event.push, Event.beginning]
  | _ => simp [held, Io.inHand, Event.push, Event.beginning, *]

theorem held_step (s : Logger B) (op : Op B) :
    s.held ++ (s.step op).1.push = (s.step op).1.beginning ++ (s.step op).2.held := by
  cases op with
  | io => exact held_stepIo s
  | logstr level message =>
    simp only [step]
    split <;> simp [held, Event.push, Event.beginning]
  | registerBackend backend =>
    simp only [step]
    split <;> simp [held, Event.push, Event.beginning]
  | triggerWakeup => simp [step, held, Event.push, Event.beginning]
  | clear =>
    simp only [step]
    split <;> simp [held, Event.push, Event.beginning]

theorem held_run (s : Logger B) (ops : List (Op B)) :
    s.held ++ (Mealy.outputs step s ops).flatMap Event.push =
      (Mealy.outputs step s ops).flatMap Event.beginning ++ (Mealy.state step s ops).held :=
  Mealy.conserved held_step s ops

/-! ## What a backend gets -/

/-- A backend is registered until the thread has ended. -/
def Registered (backend : ℕ) (s : Logger B) : Prop :=
  backend < s.backends.length ∨ s.io = .finished

theorem Registered.stepIo {backend : ℕ} {s : Logger B} (h : Registered backend s) :
    Registered backend s.stepIo.2 ∧
      owed backend s ++ s.stepIo.1.beginning.map LogMessage.trimmed =
        s.stepIo.1.loggedTo backend ++ owed backend s.stepIo.2 := by
  have hlt (hio : s.io ≠ .finished) : backend < s.backends.length := h.resolve_right hio
  fun_cases Logger.stepIo s with
  | case1 => exact ⟨h, by simp [Event.beginning, Event.loggedTo]⟩
  | case2 hio =>
    exact ⟨Or.inl (hlt (by simp [hio])), by simp [owed, hio, Event.beginning, Event.loggedTo]⟩
  | case3 hio => exact ⟨Or.inr rfl, by simp [owed, hio, Event.beginning, Event.loggedTo]⟩
  | case4 m hio =>
    exact ⟨Or.inl (hlt (by simp [hio])), by simp [owed, hio, Event.beginning, Event.loggedTo]⟩
  | case5 m hio =>
    exact ⟨Or.inl (hlt (by simp [hio])), by simp [owed, hio, Event.beginning, Event.loggedTo]⟩
  | case6 m next hio =>
    refine ⟨Or.inl (hlt (by simp [hio])), ?_⟩
    rcases Nat.lt_trichotomy next backend with hnext | rfl | hnext
    · simp [owed, hio, Event.beginning, Event.loggedTo, Nat.le_of_lt hnext, Nat.ne_of_lt hnext,
        Nat.succ_le_of_lt hnext]
    · simp [owed, hio, Event.beginning, Event.loggedTo]
    · simp [owed, hio, Event.beginning, Event.loggedTo, Nat.ne_of_gt hnext, Nat.not_le.mpr hnext,
        Nat.not_le.mpr (Nat.lt_succ_of_lt hnext)]
  | case7 m next hio hall =>
    have hbackend := hlt (by simp [hio])
    have hnext : ¬ next ≤ backend := by omega
    refine ⟨Or.inl hbackend, ?_⟩
    split <;> simp [owed, hio, Event.beginning, Event.loggedTo, hnext]
  | case8 => exact ⟨h, by simp [Event.beginning, Event.loggedTo]⟩
  | case9 => exact ⟨h, by simp [Event.beginning, Event.loggedTo]⟩

/-- A registered backend is called with every message that the thread begins to hand out. -/
theorem Registered.step {backend : ℕ} {s : Logger B} (h : Registered backend s) (op : Op B) :
    Registered backend (s.step op).2 ∧
      owed backend s ++ (s.step op).1.beginning.map LogMessage.trimmed =
        (s.step op).1.loggedTo backend ++ owed backend (s.step op).2 := by
  have hquiet (s' : Logger B) (hio : s'.io = s.io) :
      owed backend s ++ Event.quiet.beginning.map LogMessage.trimmed =
        Event.quiet.loggedTo backend ++ owed backend s' := by
    simp [owed, hio, Event.beginning, Event.loggedTo]
  cases op with
  | io => exact h.stepIo
  | logstr level message =>
    simp only [Logger.step]
    split
    · exact ⟨h, hquiet s rfl⟩
    · exact ⟨h, hquiet _ rfl⟩
  | registerBackend b =>
    simp only [Logger.step]
    split
    · exact ⟨h, hquiet s rfl⟩
    · refine ⟨h.imp_left fun hlt => ?_, hquiet _ rfl⟩
      rw [List.length_append]
      omega
  | triggerWakeup => exact ⟨h, hquiet _ rfl⟩
  | clear =>
    simp only [Logger.step]
    split
    · rename_i hfinished
      exact ⟨Or.inr hfinished, hquiet _ rfl⟩
    · exact ⟨h, hquiet s rfl⟩

theorem Registered.run {backend : ℕ} {s : Logger B} (h : Registered backend s)
    (ops : List (Op B)) :
    owed backend s ++
        ((Mealy.outputs Logger.step s ops).flatMap Event.beginning).map LogMessage.trimmed =
      (Mealy.outputs Logger.step s ops).flatMap (Event.loggedTo backend) ++
        owed backend (Mealy.state Logger.step s ops) := by
  induction ops generalizing s with
  | nil => simp
  | cons op ops ih =>
    obtain ⟨hnext, howed⟩ := h.step op
    rw [Mealy.outputs_cons, Mealy.state_cons, List.flatMap_cons, List.flatMap_cons,
      List.map_append, ← List.append_assoc, howed, List.append_assoc, ih hnext, List.append_assoc]

/-- From its registration on, a backend is called with the messages that the thread begins to
hand out, each once and in the order in which they were pushed. What the thread did not begin
with is in its hand or in the queue. -/
theorem delivers (before rest : List (Op B)) (backend : B)
    (hfree : ∀ m next, (Mealy.state step {} before).io ≠ .delivering m next) :
    let s := Mealy.state step ({} : Logger B) before
    let ops := .registerBackend backend :: rest
    let s' := Mealy.state step s ops
    let begun := (Mealy.outputs step s ops).flatMap Event.beginning
    (Mealy.outputs step s ops).flatMap (Event.loggedTo s.backends.length) ++
        owed s.backends.length s' = begun.map LogMessage.trimmed ∧
      (Mealy.outputs step ({} : Logger B) (before ++ ops)).flatMap Event.push =
        (Mealy.outputs step ({} : Logger B) before).flatMap Event.beginning ++ begun ++
          s'.held := by
  intro s ops s' begun
  have hregister : s.step (.registerBackend backend) =
      (.quiet, { s with backends := s.backends ++ [backend] }) := by
    simp only [step]
    split
    · rename_i m next hio
      exact absurd hio (hfree m next)
    · rfl
  constructor
  · have hregistered : Registered s.backends.length
        { s with backends := s.backends ++ [backend] } := Or.inl (by simp)
    have hrun := hregistered.run rest
    have howed : owed s.backends.length { s with backends := s.backends ++ [backend] } = [] := by
      unfold owed
      split
      · rename_i m next hio
        exact absurd hio (hfree m next)
      · rfl
    rw [howed, List.nil_append] at hrun
    simp only [begun, s', ops, Mealy.outputs_cons, Mealy.state_cons, hregister, List.flatMap_cons]
    exact hrun.symm
  · have hrun := held_run ({} : Logger B) (before ++ ops)
    rw [Mealy.state_append, show held ({} : Logger B) = [] from rfl, List.nil_append] at hrun
    rw [hrun, Mealy.outputs_append, List.flatMap_append]

theorem delivers_in_hand :
    let before : List (Op Unit) := [.logstr .info "on air\n", .logstr .discard "nothing", .io]
    let s := Mealy.state step ({} : Logger Unit) before
    let ops : List (Op Unit) := .registerBackend () :: [.io, .io, .logstr .trace "frame"]
    let s' := Mealy.state step s ops
    let begun := (Mealy.outputs step s ops).flatMap Event.beginning
    (Mealy.outputs step s ops).flatMap (Event.loggedTo s.backends.length) ++
        owed s.backends.length s' = begun.map LogMessage.trimmed ∧
      (Mealy.outputs step ({} : Logger Unit) (before ++ ops)).flatMap Event.push =
        (Mealy.outputs step ({} : Logger Unit) before).flatMap Event.beginning ++ begun ++
          s'.held :=
  delivers _ _ () fun m next =>
    show Io.popped { level := .info, message := "on air\n" } ≠ .delivering m next from nofun

/-! ## The end -/

/-- The wakeup has been requested, or has ended the thread. -/
def Stopping (s : Logger B) : Prop := s.messageQueue.wakeupRequested = true ∨ s.io = .finished

theorem Stopping.stepIo {s : Logger B} (h : Stopping s) :
    Stopping s.stepIo.2 ∧ s.io.inHand = s.stepIo.1.beginning ++ s.stepIo.2.io.inHand ∧
      s.stepIo.2.messageQueue.theQueue = s.messageQueue.theQueue ++ s.stepIo.1.push := by
  have hrequested (hio : s.io ≠ .finished) : s.messageQueue.wakeupRequested = true :=
    h.resolve_right hio
  fun_cases Logger.stepIo s with
  | case1 => simp [h, Event.beginning, Event.push]
  | case2 hio m messageQueue hpop =>
    have := hrequested (by simp [hio])
    simp [ThreadsafeQueue.waitAndPop, this] at hpop
  | case3 hio messageQueue hpop =>
    rcases ThreadsafeQueue.theQueue_waitAndPop hpop with ⟨_, heq, _⟩ | ⟨_, hqueue⟩
    · cases heq
    · exact ⟨Or.inr rfl, by simp [hio, Io.inHand, Event.beginning],
        by simp [Event.push, hqueue]⟩
  | case4 m hio =>
    exact ⟨Or.inl (hrequested (by simp [hio])), by simp [hio, Io.inHand, Event.beginning],
      by simp [Event.push]⟩
  | case5 m hio =>
    exact ⟨Or.inl (hrequested (by simp [hio])), by simp [hio, Io.inHand, Event.beginning],
      by simp [Event.push]⟩
  | case6 m next hio =>
    exact ⟨Or.inl (hrequested (by simp [hio])), by simp [hio, Io.inHand, Event.beginning],
      by simp [Event.push]⟩
  | case7 m next hio =>
    refine ⟨Or.inl (hrequested (by simp [hio])), ?_⟩
    split <;> simp [hio, Io.inHand, Event.beginning, Event.push]
  | case8 hio => simp [h, Event.beginning, Event.push]
  | case9 m hio => simp [h, Event.beginning, Event.push]

theorem Stopping.step {s : Logger B} (h : Stopping s) (op : Op B) :
    Stopping (s.step op).2 ∧
      s.io.inHand = (s.step op).1.beginning ++ (s.step op).2.io.inHand ∧
      (s.step op).2.messageQueue.theQueue =
        s.messageQueue.theQueue ++ (s.step op).1.push := by
  cases op with
  | io => exact h.stepIo
  | logstr level message =>
    simp only [Logger.step]
    split
    · simp [h, Event.beginning, Event.push]
    · exact ⟨h, rfl, rfl⟩
  | registerBackend backend =>
    simp only [Logger.step]
    split
    · simp [h, Event.beginning, Event.push]
    · exact ⟨h, rfl, (List.append_nil _).symm⟩
  | triggerWakeup => exact ⟨Or.inl rfl, rfl, (List.append_nil _).symm⟩
  | clear =>
    simp only [Logger.step]
    split
    · exact ⟨h, rfl, (List.append_nil _).symm⟩
    · simp [h, Event.beginning, Event.push]

theorem Stopping.run {s : Logger B} (h : Stopping s) (ops : List (Op B)) :
    s.io.inHand = (Mealy.outputs Logger.step s ops).flatMap Event.beginning ++
        (Mealy.state Logger.step s ops).io.inHand ∧
      (Mealy.state Logger.step s ops).messageQueue.theQueue =
        s.messageQueue.theQueue ++ (Mealy.outputs Logger.step s ops).flatMap Event.push := by
  induction ops generalizing s with
  | nil => simp
  | cons op ops ih =>
    obtain ⟨hnext, hhand, hqueue⟩ := h.step op
    obtain ⟨hhands, hqueues⟩ := ih hnext
    rw [Mealy.outputs_cons, Mealy.state_cons, List.flatMap_cons, List.flatMap_cons,
      List.append_assoc, ← hhands, hqueues, hqueue, List.append_assoc]
    exact ⟨hhand, rfl⟩

/-- When the destructor requests the wakeup, what is in the queue stays there, with all that is
pushed later. The thread hands out no more than the message in its hand. -/
theorem left_at_wakeup (before rest : List (Op B)) :
    let s := Mealy.state step ({} : Logger B) before
    let events := Mealy.outputs step s (.triggerWakeup :: rest)
    let s' := Mealy.state step s (.triggerWakeup :: rest)
    s.io.inHand = events.flatMap Event.beginning ++ s'.io.inHand ∧
      s'.messageQueue.theQueue = s.messageQueue.theQueue ++ events.flatMap Event.push := by
  intro s events s'
  have hstopping : Stopping (s.step .triggerWakeup).2 := Or.inl rfl
  exact hstopping.run rest

/-! ## Progress -/

/-- The thread is in its loop, and no empty message is on the way to it. -/
structure Running (s : Logger B) : Prop where
  wakeupRequested : s.messageQueue.wakeupRequested = false
  finished : s.io ≠ .finished
  undefined : ∀ m, s.io ≠ .undefined m
  held : ∀ m ∈ s.held, m.message ≠ ""

theorem Running.held_step {s : Logger B} (h : Running s) {op : Op B}
    (hne : ∀ m ∈ (s.step op).1.push, m.message ≠ "") :
    ∀ m ∈ (s.step op).2.held, m.message ≠ "" := by
  have hall : ∀ m ∈ s.held ++ (s.step op).1.push, m.message ≠ "" :=
    List.forall_mem_append.mpr ⟨h.held, hne⟩
  rw [Logger.held_step] at hall
  exact (List.forall_mem_append.mp hall).2

@[simp] theorem push_stepIo (s : Logger B) : s.stepIo.1.push = [] := by
  fun_cases Logger.stepIo s with
  | case7 => split <;> rfl
  | _ => rfl

theorem Running.stepIo {s : Logger B} (h : Running s) : Running s.stepIo.2 := by
  have hheld : ∀ m ∈ (s.step .io).2.held, m.message ≠ "" :=
    h.held_step (by simp [Logger.step])
  simp only [Logger.step] at hheld
  fun_cases Logger.stepIo s with
  | case1 => exact h
  | case2 hio m messageQueue hpop =>
    simp only [Logger.stepIo, hio, hpop] at hheld
    refine ⟨?_, nofun, nofun, hheld⟩
    simp only [ThreadsafeQueue.waitAndPop, h.wakeupRequested, Bool.false_eq_true, if_false] at hpop
    split at hpop
    · cases hpop
    · split at hpop
      · cases hpop
      · cases hpop
        rfl
  | case3 hio messageQueue hpop =>
    obtain ⟨hrequested, -⟩ := ThreadsafeQueue.waitAndPop_wakeup hpop
    rw [h.wakeupRequested] at hrequested
    cases hrequested
  | case4 m hio hempty => exact absurd hempty (h.held m (by simp [Logger.held, hio, Io.inHand]))
  | case5 m hio hempty =>
    simp only [Logger.stepIo, hio, hempty, if_false] at hheld
    exact ⟨h.wakeupRequested, nofun, nofun, hheld⟩
  | case6 m next hio hlt =>
    simp only [Logger.stepIo, hio, hlt, if_true] at hheld
    exact ⟨h.wakeupRequested, nofun, nofun, hheld⟩
  | case7 m next hio hall =>
    simp only [Logger.stepIo, hio, hall, if_false] at hheld
    exact ⟨h.wakeupRequested, nofun, nofun, hheld⟩
  | case8 => exact h
  | case9 => exact h

theorem Running.step {s : Logger B} (h : Running s) {op : Op B} (hop : op ≠ .triggerWakeup)
    (hne : ∀ m ∈ (s.step op).1.push, m.message ≠ "") : Running (s.step op).2 := by
  have hheld := h.held_step hne
  cases op with
  | io => exact h.stepIo
  | logstr level message =>
    simp only [Logger.step] at hheld ⊢
    split
    · exact h
    · rename_i hlevel
      rw [if_neg hlevel] at hheld
      exact ⟨h.wakeupRequested, h.finished, h.undefined, hheld⟩
  | registerBackend backend =>
    simp only [Logger.step]
    split
    · exact h
    · exact ⟨h.wakeupRequested, h.finished, h.undefined, h.held⟩
  | triggerWakeup => exact absurd rfl hop
  | clear =>
    simp only [Logger.step]
    rw [if_neg h.finished]
    exact h

theorem Running.run {s : Logger B} (h : Running s) (ops : List (Op B))
    (hops : ∀ op ∈ ops, op ≠ .triggerWakeup)
    (hne : ∀ m ∈ (Mealy.outputs Logger.step s ops).flatMap Event.push, m.message ≠ "") :
    Running (Mealy.state Logger.step s ops) := by
  induction ops generalizing s with
  | nil => exact h
  | cons op ops ih =>
    obtain ⟨hop, hops⟩ := List.forall_mem_cons.mp hops
    rw [Mealy.outputs_cons, List.flatMap_cons, List.forall_mem_append] at hne
    exact ih (h.step hop hne.1) hops hne.2

def ios (B : Type*) (n : ℕ) : List (Op B) := List.replicate n .io

theorem returns_of_delivering {s : Logger B} {m : LogMessage} {next : ℕ}
    (hio : s.io = .delivering m next) :
    ∃ n, Mealy.state step s (ios B n) = { s with io := .waiting } := by
  induction hn : s.backends.length - next generalizing s next with
  | zero =>
    have hnext : ¬ next < s.backends.length := by omega
    exact ⟨1, by simp [ios, step, stepIo, hio, hnext]⟩
  | succ k ih =>
    have hnext : next < s.backends.length := by omega
    have hstep : s.stepIo.2 = { s with io := .delivering m (next + 1) } := by
      simp [stepIo, hio, hnext]
    obtain ⟨n, hrun⟩ := ih (s := { s with io := .delivering m (next + 1) }) rfl
      (by simp only; omega)
    refine ⟨n + 1, ?_⟩
    rw [ios, List.replicate_succ, Mealy.state_cons, step, hstep]
    exact hrun

theorem Running.returns {s : Logger B} (h : Running s) :
    ∃ n, Mealy.state Logger.step s (ios B n) = { s with io := .waiting } := by
  cases hio : s.io with
  | waiting => exact ⟨0, by rw [← hio]; rfl⟩
  | popped m =>
    have hne := h.held m (by simp [Logger.held, hio, Io.inHand])
    have hstep : s.stepIo.2 = { s with io := .delivering m.trimmed 0 } := by
      simp [Logger.stepIo, hio, hne]
    obtain ⟨n, hrun⟩ :=
      returns_of_delivering (s := { s with io := .delivering m.trimmed 0 }) rfl
    refine ⟨n + 1, ?_⟩
    rw [ios, List.replicate_succ, Mealy.state_cons, Logger.step, hstep]
    exact hrun
  | delivering m next => exact returns_of_delivering hio
  | finished => exact absurd hio h.finished
  | undefined m => exact absurd hio (h.undefined m)

theorem Running.ios {s : Logger B} (h : Running s) (n : ℕ) :
    Running (Mealy.state Logger.step s (ios B n)) := by
  induction n generalizing s with
  | zero => exact h
  | succ n ih => exact ih h.stepIo

theorem ios_add (m n : ℕ) : ios B (m + n) = ios B m ++ ios B n := List.replicate_add ..

/-- From the queue, the thread gets to its end. -/
theorem Running.empties_of_waiting {s : Logger B} (h : Running s) (hio : s.io = .waiting) :
    ∃ n, (Mealy.state Logger.step s (Logger.ios B n)).io = .waiting ∧
      (Mealy.state Logger.step s (Logger.ios B n)).messageQueue.theQueue = [] := by
  induction hqueue : s.messageQueue.theQueue generalizing s with
  | nil => exact ⟨0, hio, hqueue⟩
  | cons m theQueue ih =>
    have hpop : s.messageQueue.waitAndPop 1 =
        some (.value m, { s.messageQueue with theQueue }) := by
      simp [ThreadsafeQueue.waitAndPop, h.wakeupRequested, hqueue]
    have hstep : s.stepIo.2 =
        { s with messageQueue := { s.messageQueue with theQueue }, io := .popped m } := by
      simp only [Logger.stepIo, hio, hpop]
    obtain ⟨n, hn⟩ := h.stepIo.returns
    have hnext := h.stepIo.ios n
    rw [hn] at hnext
    obtain ⟨k, hwaiting, hempty⟩ := ih hnext rfl (by rw [hstep])
    refine ⟨1 + n + k, ?_⟩
    rw [ios_add, ios_add, Mealy.state_append, Mealy.state_append]
    change (Mealy.state Logger.step (Mealy.state Logger.step s.stepIo.2 (Logger.ios B n))
        _).io = _ ∧
      (Mealy.state Logger.step (Mealy.state Logger.step s.stepIo.2 (Logger.ios B n))
        _).messageQueue.theQueue = _
    rw [hn]
    exact ⟨hwaiting, hempty⟩

theorem push_ios (s : Logger B) (n : ℕ) :
    (Mealy.outputs step s (ios B n)).flatMap Event.push = [] := by
  induction n generalizing s with
  | zero => rfl
  | succ n ih =>
    rw [ios, List.replicate_succ, Mealy.outputs_cons, List.flatMap_cons, step, push_stepIo]
    exact ih _

/-- As long as no empty message is logged, the thread can hand out everything that was pushed
before a wakeup. -/
theorem drains (ops : List (Op B)) (hwakeup : ∀ op ∈ ops, op ≠ .triggerWakeup)
    (hne : ∀ m ∈ (Mealy.outputs step ({} : Logger B) ops).flatMap Event.push, m.message ≠ "") :
    ∃ n, let s := Mealy.state step ({} : Logger B) (ops ++ ios B n)
      s.io = .waiting ∧ s.messageQueue.theQueue = [] ∧
        (Mealy.outputs step ({} : Logger B) (ops ++ ios B n)).flatMap Event.beginning =
          (Mealy.outputs step ({} : Logger B) ops).flatMap Event.push := by
  have hstart : Running ({} : Logger B) := ⟨rfl, nofun, nofun, nofun⟩
  have hrunning := hstart.run ops hwakeup hne
  obtain ⟨n, hn⟩ := hrunning.returns
  have hreturned := hrunning.ios n
  rw [hn] at hreturned
  obtain ⟨k, hwaiting, hempty⟩ := hreturned.empties_of_waiting rfl
  have hend : Mealy.state step ({} : Logger B) (ops ++ ios B (n + k)) =
      Mealy.state step { Mealy.state step ({} : Logger B) ops with io := .waiting } (ios B k) := by
    rw [ios_add, Mealy.state_append, Mealy.state_append, hn]
  refine ⟨n + k, ?_⟩
  have horder := held_run ({} : Logger B) (ops ++ ios B (n + k))
  have hheld : held (Mealy.state step ({} : Logger B) (ops ++ ios B (n + k))) = [] := by
    rw [hend, held, hwaiting, hempty]
    rfl
  rw [hheld, List.append_nil, Mealy.outputs_append, List.flatMap_append, push_ios,
    List.append_nil] at horder
  simp only
  rw [hend]
  refine ⟨hwaiting, hempty, ?_⟩
  rw [Mealy.outputs_append]
  exact horder.symm

theorem drains_two_messages :
    let ops : List (Op Unit) :=
      [.registerBackend (), .logstr .info "on air", .io, .io, .logstr .warn "off air"]
    ∃ n, let s := Mealy.state step ({} : Logger Unit) (ops ++ ios Unit n)
      s.io = .waiting ∧ s.messageQueue.theQueue = [] ∧
        (Mealy.outputs step ({} : Logger Unit) (ops ++ ios Unit n)).flatMap Event.beginning =
          (Mealy.outputs step ({} : Logger Unit) ops).flatMap Event.push :=
  drains _ (by simp) (by decide)

end Logger

end SourceCompanion
