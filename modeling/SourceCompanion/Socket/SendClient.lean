import Mathlib.Data.List.Flatten
import Mathlib.Tactic.Linarith
import SourceCompanion.Run.Mealy
import SourceCompanion.Socket.ThreadsafeQueue

/-! # The sending client

One producer calls `sendall`, which is a push, a size check and a pop in three critical sections.
The thread of the client connects, pops and sends meanwhile. A run is any order of their steps,
and a step that its thread is not at changes nothing.
-/

namespace SourceCompanion.Socket

/-- Where the producer is: between two calls, or before the push, the size check or the pop of
`sendall`, or before the wakeup or the join of the destructor. -/
inductive TCPSendClient.Producer (T : Type*) where
  | idle
  | submitting (buffer : T)
  | submitted
  | overfull
  | destroying
  | joining
deriving DecidableEq

inductive TCPSendClient.Process (T : Type*) where
  | looping
  | connecting
  | popping
  | sending (incoming : T)
  | finished
deriving DecidableEq

/-- A client. It never looks into the buffers. -/
structure TCPSendClient (T : Type*) where
  isConnected : Bool := false
  queue : ThreadsafeQueue T := {}
  running : Bool := true
  exceptionData : String := ""
  producer : TCPSendClient.Producer T := .idle
  process : TCPSendClient.Process T := .looping
deriving DecidableEq

namespace TCPSendClient

variable {T : Type*}

def maxQueueSize : ℕ := 512

inductive Op (T : Type*) where
  | sendall (buffer : T)
  | push
  | size
  | tryPop
  | destroy
  | triggerWakeup
  | loop
  | connect (succeeds : Bool)
  | waitAndPop
  | fail (what : String)
  | send (succeeds : Bool)
deriving DecidableEq

inductive Event (T : Type*) where
  | quiet
  | runtimeError (what : String)
  | submit (buffer : T)
  | discard (buffer : T)
  | take (buffer : T)
  | handOver (buffer : T)
deriving DecidableEq

def stepProducer (s : TCPSendClient T) (op : Op T) : Event T × TCPSendClient T :=
  match s.producer, op with
  | .idle, .sendall buffer =>
    if s.running then (.quiet, { s with producer := .submitting buffer })
    else (.runtimeError s.exceptionData, s)
  | .submitting buffer, .push =>
    (.submit buffer, { s with queue := (s.queue.push buffer 0).2, producer := .submitted })
  | .submitted, .size =>
    if s.queue.size > maxQueueSize then (.quiet, { s with producer := .overfull })
    else (.quiet, { s with producer := .idle })
  | .overfull, .tryPop =>
    (s.queue.tryPop.1.elim .quiet .discard,
      { s with queue := s.queue.tryPop.2, producer := .idle })
  | .idle, .destroy => (.quiet, { s with running := false, producer := .destroying })
  | .destroying, .triggerWakeup =>
    (.quiet, { s with queue := s.queue.triggerWakeup, producer := .joining })
  | _, _ => (.quiet, s)

def stepProcess (s : TCPSendClient T) (op : Op T) : Event T × TCPSendClient T :=
  match s.process, op with
  | .looping, .loop =>
    if s.running then
      (.quiet, { s with process := if s.isConnected then .popping else .connecting })
    else (.quiet, { s with process := .finished })
  | .connecting, .connect succeeds =>
    (.quiet, { s with isConnected := succeeds, process := .looping })
  | .popping, .waitAndPop =>
    match s.queue.waitAndPop 1 with
    | none => (.quiet, s)
    | some (.value incoming, queue) =>
      (.take incoming, { s with queue, process := .sending incoming })
    | some (.wakeup, queue) => (.quiet, { s with queue, process := .finished })
  -- The mutex of the queue is all that can throw outside of the inner handlers.
  | .popping, .fail what =>
    (.quiet, { s with exceptionData := what, running := false, process := .finished })
  | .sending incoming, .send succeeds =>
    if succeeds then (.handOver incoming, { s with process := .looping })
    else (.handOver incoming, { s with isConnected := false, process := .looping })
  | _, _ => (.quiet, s)

def step (s : TCPSendClient T) (op : Op T) : Event T × TCPSendClient T :=
  match op with
  | .sendall _ | .push | .size | .tryPop | .destroy | .triggerWakeup => s.stepProducer op
  | .loop | .connect _ | .waitAndPop | .fail _ | .send _ => s.stepProcess op

def Event.submission : Event T → List T
  | .submit buffer => [buffer]
  | _ => []

def Event.removal : Event T → List T
  | .discard buffer | .take buffer => [buffer]
  | _ => []

def Event.taking : Event T → List T
  | .take buffer => [buffer]
  | _ => []

def Event.handover : Event T → List T
  | .handOver buffer => [buffer]
  | _ => []

def submissions (ops : List (Op T)) : List T :=
  (Mealy.outputs step {} ops).flatMap Event.submission

def handovers (ops : List (Op T)) : List T :=
  (Mealy.outputs step {} ops).flatMap Event.handover

def Process.inFlight : Process T → List T
  | .sending incoming => [incoming]
  | _ => []

/-- How much more than the maximum the queue may hold. -/
def Producer.excess : Producer T → ℕ
  | .submitted | .overfull => 1
  | _ => 0

/-- The buffers are handed to the socket in submission order and at most once. -/
def InOrder (ops : List (Op T)) : Prop := (handovers ops).Sublist (submissions ops)

/-- The queue is within its maximum whenever the producer is between two calls. -/
def Bounded (ops : List (Op T)) : Prop :=
  ∀ i, (Mealy.state step {} (ops.take i)).producer = .idle →
    (Mealy.state step {} (ops.take i)).queue.size ≤ maxQueueSize

/-- A buffer is discarded only while the queue is above its maximum. -/
def DiscardsAboveMaximum (ops : List (Op T)) : Prop :=
  ∀ before rest, ops = before ++ .tryPop :: rest → ∀ buffer,
    ((Mealy.state step {} before).step .tryPop).1 = .discard buffer →
      maxQueueSize < (Mealy.state step {} before).queue.size

/-- The step is no pop of the thread between the size check and the pop of `sendall`. -/
def Undisturbed (s : TCPSendClient T) (op : Op T) : Prop :=
  s.producer = .overfull → s.process = .popping → op ≠ .waitAndPop

instance [DecidableEq T] (s : TCPSendClient T) (op : Op T) : Decidable (s.Undisturbed op) :=
  inferInstanceAs (Decidable (_ → _ → _))

section Lemmas

variable (s : TCPSendClient T) (op : Op T)

theorem queue_stepProducer :
    s.queue.theQueue ++ (s.stepProducer op).1.submission =
      (s.stepProducer op).1.removal ++ (s.stepProducer op).2.queue.theQueue := by
  fun_cases stepProducer s op with
  | case6 =>
    have hpop := s.queue.theQueue_tryPop
    cases h : s.queue.tryPop.1 with
    | none => simpa [h, Event.submission, Event.removal] using hpop
    | some discard => simpa [h, Event.submission, Event.removal] using hpop
  | _ => simp [Event.submission, Event.removal]

theorem queue_stepProcess :
    s.queue.theQueue ++ (s.stepProcess op).1.submission =
      (s.stepProcess op).1.removal ++ (s.stepProcess op).2.queue.theQueue := by
  fun_cases stepProcess s op with
  | case5 _ incoming queue hpop =>
    rcases ThreadsafeQueue.theQueue_waitAndPop hpop with ⟨_, heq, hqueue⟩ | ⟨heq, _⟩
    · cases heq
      simpa [Event.submission, Event.removal] using hqueue
    · cases heq
  | case6 _ queue hpop =>
    rcases ThreadsafeQueue.theQueue_waitAndPop hpop with ⟨_, heq, _⟩ | ⟨_, hqueue⟩
    · cases heq
    · simp [Event.submission, Event.removal, hqueue]
  | _ => simp [Event.submission, Event.removal]

theorem queue_step :
    s.queue.theQueue ++ (s.step op).1.submission =
      (s.step op).1.removal ++ (s.step op).2.queue.theQueue := by
  unfold step
  split
  all_goals first | exact queue_stepProducer s _ | exact queue_stepProcess s _

theorem inFlight_stepProducer :
    s.process.inFlight ++ (s.stepProducer op).1.taking =
      (s.stepProducer op).1.handover ++ (s.stepProducer op).2.process.inFlight := by
  fun_cases stepProducer s op with
  | case6 => cases s.queue.tryPop.1 <;> simp [Event.taking, Event.handover]
  | _ => simp [Event.taking, Event.handover]

theorem inFlight_stepProcess :
    s.process.inFlight ++ (s.stepProcess op).1.taking =
      (s.stepProcess op).1.handover ++ (s.stepProcess op).2.process.inFlight := by
  fun_cases stepProcess s op with
  | case1 =>
    cases s.isConnected <;> simp [Event.taking, Event.handover, Process.inFlight, *]
  | _ => simp [Event.taking, Event.handover, Process.inFlight, *]

theorem inFlight_step :
    s.process.inFlight ++ (s.step op).1.taking =
      (s.step op).1.handover ++ (s.step op).2.process.inFlight := by
  unfold step
  split
  all_goals first | exact inFlight_stepProducer s _ | exact inFlight_stepProcess s _

theorem taking_sublist_removal (e : Event T) : e.taking.Sublist e.removal := by
  cases e <;> simp [Event.taking, Event.removal]

theorem producer_stepProcess : (s.stepProcess op).2.producer = s.producer := by
  fun_cases stepProcess s op <;> rfl

theorem submission_stepProcess : (s.stepProcess op).1.submission = [] := by
  fun_cases stepProcess s op <;> rfl

theorem size_stepProcess : (s.stepProcess op).2.queue.size ≤ s.queue.size := by
  have hqueue := congrArg List.length (queue_stepProcess s op)
  rw [submission_stepProcess, List.append_nil, List.length_append] at hqueue
  unfold ThreadsafeQueue.size
  linarith

theorem size_stepProcess_of_ne (h : op ≠ .waitAndPop ∨ s.process ≠ .popping) :
    (s.stepProcess op).2.queue.size = s.queue.size := by
  fun_cases stepProcess s op
  all_goals first | rfl | simp_all

theorem size_stepProducer {s : TCPSendClient T} (op : Op T)
    (h : s.queue.size ≤ maxQueueSize + s.producer.excess) :
    (s.stepProducer op).2.queue.size ≤ maxQueueSize + (s.stepProducer op).2.producer.excess := by
  fun_cases stepProducer s op with
  | case5 heq hsmall => simpa [Producer.excess] using hsmall
  | _ => simp_all [Producer.excess]

theorem size_step {s : TCPSendClient T} (op : Op T)
    (h : s.queue.size ≤ maxQueueSize + s.producer.excess) :
    (s.step op).2.queue.size ≤ maxQueueSize + (s.step op).2.producer.excess := by
  have hprocess : (s.stepProcess op).2.queue.size ≤
      maxQueueSize + (s.stepProcess op).2.producer.excess := by
    rw [producer_stepProcess]
    exact (size_stepProcess s op).trans h
  unfold step
  split
  all_goals first | exact size_stepProducer _ h | exact hprocess

theorem overfull_stepProducer (h : s.producer = .overfull → maxQueueSize < s.queue.size) :
    (s.stepProducer op).2.producer = .overfull →
      maxQueueSize < (s.stepProducer op).2.queue.size := by
  fun_cases stepProducer s op with
  | case4 heq hlarge => exact fun _ => hlarge
  | _ => simp_all

/-- What the size check saw is still so before the pop, if the thread did not pop. -/
theorem overfull_step {s : TCPSendClient T} {op : Op T}
    (h : s.producer = .overfull → maxQueueSize < s.queue.size) (hop : s.Undisturbed op)
    (hoverfull : (s.step op).2.producer = .overfull) :
    maxQueueSize < (s.step op).2.queue.size := by
  have hprocess (hproducer : (s.stepProcess op).2.producer = .overfull) :
      maxQueueSize < (s.stepProcess op).2.queue.size := by
    rw [producer_stepProcess] at hproducer
    rw [size_stepProcess_of_ne]
    · exact h hproducer
    · by_cases hpopping : s.process = .popping
      · exact Or.inl (hop hproducer hpopping)
      · exact Or.inr hpopping
  unfold step at hoverfull ⊢
  split
  all_goals first | exact overfull_stepProducer s _ h hoverfull | exact hprocess hoverfull

theorem producer_of_discard {buffer : T} :
    (s.stepProducer op).1 = .discard buffer → s.producer = .overfull := by
  fun_cases stepProducer s op with
  | case6 heq => exact fun _ => heq
  | _ => exact fun h => nomatch h

end Lemmas

open List in
theorem inOrder (ops : List (Op T)) : InOrder ops := by
  have hqueue := Mealy.conserved queue_step {} ops
  have hflight := Mealy.conserved inFlight_step {} ops
  unfold InOrder
  calc handovers ops
      <+ handovers ops ++ (Mealy.state step {} ops).process.inFlight := List.sublist_append_left ..
    _ = (Mealy.outputs step {} ops).flatMap Event.taking := hflight.symm
    _ <+ (Mealy.outputs step {} ops).flatMap Event.removal :=
        List.Sublist.flatMap_right _ fun e _ => taking_sublist_removal e
    _ <+ (Mealy.outputs step {} ops).flatMap Event.removal ++
          (Mealy.state step {} ops).queue.theQueue := List.sublist_append_left ..
    _ = submissions ops := hqueue.symm

theorem bounded (ops : List (Op T)) : Bounded ops := by
  intro i hidle
  have hsize := Mealy.invariant (I := fun s => s.queue.size ≤ maxQueueSize + s.producer.excess)
    (ops.take i) (s := ({} : TCPSendClient T)) (Nat.zero_le _) fun s op h => size_step op h
  simpa [hidle, Producer.excess] using hsize

/-- In every run the buffers are handed over in order and at most once, and the queue is within
its maximum after each `sendall`. If the thread never pops between the size check and the pop of
one `sendall`, a buffer is discarded only while the queue is above its maximum. -/
theorem sendall_process (ops : List (Op T)) :
    InOrder ops ∧ Bounded ops ∧
      (Mealy.Along step Undisturbed {} ops → DiscardsAboveMaximum ops) := by
  refine ⟨inOrder ops, bounded ops, ?_⟩
  rintro hundisturbed before rest rfl buffer hdiscard
  have hbefore := ((Mealy.along_append ..).mp hundisturbed).1
  apply hbefore.invariant (I := fun s => s.producer = .overfull → maxQueueSize < s.queue.size)
  · intro h
    cases h
  · exact fun s op h hop => overfull_step h hop
  · exact producer_of_discard _ .tryPop hdiscard

def calls (buffer : T) (n : ℕ) : List (Op T) :=
  (List.replicate n [.sendall buffer, .push, .size]).flatten

theorem calls_succ (buffer : T) (n : ℕ) :
    calls buffer (n + 1) = calls buffer n ++ [.sendall buffer, .push, .size] := by
  simp [calls, List.replicate_succ']

theorem state_calls (buffer : T) {n : ℕ} (hn : n ≤ maxQueueSize) :
    Mealy.state step {} (calls buffer n) =
      { queue := { theQueue := List.replicate n buffer } } := by
  induction n with
  | zero => rfl
  | succ n ih =>
    rw [calls_succ, Mealy.state_append, ih (Nat.le_of_succ_le hn)]
    simp [step, stepProducer, ThreadsafeQueue.push, ThreadsafeQueue.size, List.replicate_succ',
      Nat.not_lt.mpr hn]

theorem state_calls_overfull (buffer : T) :
    Mealy.state step {} (calls buffer (maxQueueSize + 1)) =
      { queue := { theQueue := List.replicate (maxQueueSize + 1) buffer }
        producer := .overfull } := by
  rw [calls_succ, Mealy.state_append, state_calls buffer le_rfl]
  simp [step, stepProducer, ThreadsafeQueue.push, ThreadsafeQueue.size, List.replicate_succ']

def race (buffer : T) : List (Op T) :=
  calls buffer (maxQueueSize + 1) ++ [.loop, .connect true, .loop, .waitAndPop]

theorem state_race (buffer : T) :
    Mealy.state step {} (race buffer) =
      { isConnected := true
        queue := { theQueue := List.replicate maxQueueSize buffer }
        producer := .overfull
        process := .sending buffer } := by
  rw [race, Mealy.state_append, state_calls_overfull]
  simp [step, stepProcess, ThreadsafeQueue.waitAndPop, List.replicate_succ]

/-- If the thread pops between the size check and the pop of `sendall`, a buffer is discarded
while the queue holds no more than its maximum. -/
theorem discards_at_maximum : ¬ DiscardsAboveMaximum (race ([] : List UInt8) ++ [.tryPop]) := by
  intro h
  have hdiscard := h _ [] rfl []
  rw [state_race] at hdiscard
  have hlarge := hdiscard rfl
  simp [ThreadsafeQueue.size] at hlarge

/-- A run in which the first buffer is discarded. -/
theorem sendall_process_discard :
    ((Mealy.state step {} (calls ([] : List UInt8) (maxQueueSize + 1))).step .tryPop).1 =
        .discard [] ∧
      DiscardsAboveMaximum (calls ([] : List UInt8) (maxQueueSize + 1) ++ [.tryPop]) := by
  constructor
  · rw [state_calls_overfull]
    rfl
  · apply (sendall_process _).2.2
    apply Mealy.along_of_forall
    rintro op hop s - - rfl
    simp [calls] at hop

end TCPSendClient

end SourceCompanion.Socket
