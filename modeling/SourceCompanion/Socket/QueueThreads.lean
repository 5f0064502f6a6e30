import SourceCompanion.Run.Monitor
import SourceCompanion.Socket.ThreadsafeQueue
import Mathlib.Data.PNat.Notation

/-! # Threads on one queue

Any number of threads call the operations of a queue. Between two steps of one thread, which may
be in the middle of the loop that makes room, any other thread may take steps. In every run the
elements leave the queue in the order in which they were accepted, each of them once.
-/

namespace SourceCompanion.ThreadsafeQueue

variable {T : Type*}

/-- A call. A push without a maximum size has maximum zero. The type has what the source
asserts of a maximum that evicts, and what a waiting pop needs. -/
inductive Op (T : Type*) where
  | push (val : T) (maxSize : ℕ)
  | pushOverflow (val : T) (maxSize : ℕ+)
  | pushWaitIfFull (val : T) (threshold : ℕ)
  | triggerWakeup
  | empty
  | size
  | tryPop
  | waitAndPop (prebuffering : ℕ+)

inductive Answer (T : Type*) where
  | nothing
  | empty (answer : Bool)
  | size (answer : ℕ)
  | overflow (answer : PushOverflowResult)
  | tried (popped : Option T)
  | waited (answer : Popped T)

/-- What a call ends with, next to the elements that it put into the queue and evicted. -/
structure Outcome (T : Type*) where
  answer : Answer T
  accepted : List T := []
  evicted : List T := []

@[simp] def Answer.elements : Answer T → List T
  | .tried popped => popped.toList
  | .waited (.value popped) => [popped]
  | _ => []

@[simp] def Outcome.removed (outcome : Outcome T) : List T :=
  outcome.evicted ++ outcome.answer.elements

/-! ## One operation at a time -/

/-- An operation in one critical section. A call that has to wait has no outcome yet. -/
def attempt (q : ThreadsafeQueue T) : Op T → Option (Outcome T) × ThreadsafeQueue T
  | .push val maxSize =>
    let accepted := if maxSize = 0 ∨ q.theQueue.length < maxSize then [val] else []
    let (newSize, q) := q.push val maxSize
    (some { answer := .size newSize, accepted }, q)
  | .pushOverflow val maxSize =>
    let evicted := (makeRoom maxSize q.theQueue).1
    let (result, q) := q.pushOverflow val maxSize
    (some { answer := .overflow result, accepted := [val], evicted }, q)
  | .pushWaitIfFull val threshold =>
    match q.pushWaitIfFull val threshold with
    | none => (none, q)
    | some (newSize, q) => (some { answer := .size newSize, accepted := [val] }, q)
  | .triggerWakeup => (some { answer := .nothing }, q.triggerWakeup)
  | .empty => (some { answer := .empty q.empty }, q)
  | .size => (some { answer := .size q.size }, q)
  | .tryPop =>
    let (popped, q) := q.tryPop
    (some { answer := .tried popped }, q)
  | .waitAndPop prebuffering =>
    match q.waitAndPop prebuffering with
    | none => (none, q)
    | some (answer, q) => (some { answer := .waited answer }, q)

theorem attempt_of_none {q q' : ThreadsafeQueue T} {op : Op T} (h : q.attempt op = (none, q')) :
    q' = q := by
  cases op with
  | pushWaitIfFull val threshold =>
    unfold attempt at h
    cases hpush : q.pushWaitIfFull val threshold with
    | none => simpa [hpush, eq_comm] using h
    | some p => simp [hpush] at h
  | waitAndPop prebuffering =>
    unfold attempt at h
    cases hpop : q.waitAndPop prebuffering with
    | none => simpa [hpop, eq_comm] using h
    | some p => simp [hpop] at h
  | _ => cases h

/-- A place inside a critical section: before the operation, or in the loop that makes room with
what it evicted so far, of which the source keeps whether it is anything. -/
inductive Place (T : Type*) where
  | start (op : Op T)
  | makingRoom (val : T) (maxSize : ℕ+) (evicted : List T)

/-- The critical sections. Every turn of the loop that makes room is a step of its own. -/
def code : Monitor.Code (ThreadsafeQueue T) (Op T) (Place T) (Outcome T) where
  enter
    | .pushOverflow val maxSize => .makingRoom val maxSize []
    | op => .start op
  step q
    | .makingRoom val maxSize evicted =>
      if maxSize ≤ q.theQueue.length then
        .next { q with theQueue := q.theQueue.tail }
          (.makingRoom val maxSize (evicted ++ q.theQueue.take 1))
      else
        let theQueue := q.theQueue ++ [val]
        .leave { q with theQueue }
          { answer := .overflow { overflowed := !evicted.isEmpty, newSize := theQueue.length }
            accepted := [val]
            evicted }
    | .start op =>
      match q.attempt op with
      | (none, _) => .wait
      | (some outcome, q) => .leave q outcome

/-- What the loop and the push after it leave behind. -/
def roomMade (val : T) (maxSize : ℕ+) (evicted theQueue : List T) (wakeupRequested : Bool) :
    Option (Outcome T) × ThreadsafeQueue T :=
  let room := makeRoom maxSize theQueue
  let newSize := (room.2 ++ [val]).length
  (some
    { answer := .overflow { overflowed := !(evicted ++ room.1).isEmpty, newSize }
      accepted := [val]
      evicted := evicted ++ room.1 },
    { theQueue := room.2 ++ [val], wakeupRequested })

theorem ends_makingRoom (val : T) (maxSize : ℕ+) (evicted theQueue : List T)
    (wakeupRequested : Bool) :
    code.Ends { theQueue, wakeupRequested } (.makingRoom val maxSize evicted)
      (roomMade val maxSize evicted theQueue wakeupRequested) := by
  -- The loop ends at a queue that is not full, and the rest of the section pushes.
  have hleave (evicted theQueue : List T) (hroom : theQueue.length < maxSize) :
      code.Ends { theQueue, wakeupRequested } (.makingRoom val maxSize evicted)
        (roomMade val maxSize evicted theQueue wakeupRequested) := by
    rw [roomMade, makeRoom_of_lt hroom, List.append_nil]
    exact .leave (if_neg (Nat.not_le_of_lt hroom))
  induction theQueue generalizing evicted with
  | nil => exact hleave evicted [] maxSize.2
  | cons popped theQueue ih =>
    by_cases hfull : maxSize ≤ (popped :: theQueue).length
    · have hturn : roomMade val maxSize evicted (popped :: theQueue) wakeupRequested =
          roomMade val maxSize (evicted ++ [popped]) theQueue wakeupRequested := by
        rw [roomMade, roomMade, makeRoom_cons_of_le hfull, List.append_assoc,
          List.singleton_append]
      rw [hturn]
      exact .next (if_pos hfull) (ih (evicted ++ [popped]))
    · exact hleave evicted _ (Nat.lt_of_not_le hfull)

theorem ends_enter (q : ThreadsafeQueue T) (op : Op T) :
    code.Ends q (code.enter op) (q.attempt op) := by
  have hstart (hop : code.enter op = .start op) : code.Ends q (code.enter op) (q.attempt op) := by
    rw [hop]
    rcases hattempt : q.attempt op with ⟨_ | outcome, q'⟩
    · obtain rfl := attempt_of_none hattempt
      exact .wait (by simp only [code, hattempt])
    · exact .leave (by simp only [code, hattempt])
  cases op with
  | pushOverflow val maxSize => exact ends_makingRoom val maxSize [] q.theQueue q.wakeupRequested
  | _ => exact hstart rfl

/-! ## First in, first out -/

@[simp] def accepted : Option (Outcome T) → List T
  | none => []
  | some outcome => outcome.accepted

@[simp] def removed : Option (Outcome T) → List T
  | none => []
  | some outcome => outcome.removed

/-- An attempt takes elements from the front and puts elements at the back. -/
theorem theQueue_attempt (q : ThreadsafeQueue T) (op : Op T) :
    q.theQueue ++ accepted (q.attempt op).1 =
      removed (q.attempt op).1 ++ (q.attempt op).2.theQueue := by
  cases op with
  | push val maxSize =>
    by_cases hzero : maxSize = 0
    · simp [attempt, push, hzero]
    · by_cases hroom : q.theQueue.length < maxSize
      · simp [attempt, push, hzero, hroom]
      · simp [attempt, push, hzero, hroom]
  | pushOverflow val maxSize =>
    have hroom := makeRoom_append maxSize q.theQueue
    simp [attempt, pushOverflow, ← List.append_assoc, hroom]
  | pushWaitIfFull val threshold =>
    by_cases hfull : threshold ≤ q.theQueue.length
    · simp [attempt, pushWaitIfFull, hfull]
    · simp [attempt, pushWaitIfFull, hfull]
  | triggerWakeup | empty | size => simp [attempt]
  | tryPop => simp [attempt, ← theQueue_tryPop q]
  | waitAndPop prebuffering =>
    cases hpop : q.waitAndPop prebuffering with
    | none => simp [attempt, hpop]
    | some p =>
      obtain ⟨answer, q'⟩ := p
      rcases theQueue_waitAndPop hpop with ⟨popped, rfl, hqueue⟩ | ⟨rfl, hqueue⟩
      · simp [attempt, hpop, hqueue]
      · simp [attempt, hpop, hqueue]

def Place.evicted : Place T → List T
  | .start _ => []
  | .makingRoom _ _ evicted => evicted

theorem evicted_enter (op : Op T) : (code.enter op).evicted = [] := by cases op <;> rfl

theorem theQueue_of_next {q q' : ThreadsafeQueue T} {place place' : Place T}
    (h : code.step q place = .next q' place') :
    place.evicted ++ q.theQueue = place'.evicted ++ q'.theQueue := by
  cases place with
  | start op =>
    simp only [code] at h
    split at h <;> cases h
  | makingRoom val maxSize evicted =>
    simp only [code] at h
    split at h
    · cases h
      cases q.theQueue <;> simp [Place.evicted]
    · cases h

theorem evicted_of_wait {q : ThreadsafeQueue T} {place : Place T}
    (h : code.step q place = .wait) : place.evicted = [] := by
  cases place with
  | start op => rfl
  | makingRoom val maxSize evicted =>
    simp only [code] at h
    split at h <;> cases h

theorem theQueue_of_leave {q q' : ThreadsafeQueue T} {place : Place T} {outcome : Outcome T}
    (h : code.step q place = .leave q' outcome) :
    (place.evicted ++ q.theQueue) ++ outcome.accepted = outcome.removed ++ q'.theQueue := by
  cases place with
  | start op =>
    have hattempt := theQueue_attempt q op
    simp only [code] at h
    split at h
    · cases h
    · rename_i heq
      cases h
      rwa [heq] at hattempt
  | makingRoom val maxSize evicted =>
    simp only [code] at h
    split at h
    · cases h
    · cases h
      simp [Place.evicted]

section

variable {ι : Type*}

/-- The elements that are in the queue, or removed by the loop that runs. -/
def held (m : Monitor.State (ThreadsafeQueue T) ι (Op T) (Place T)) : List T :=
  (m.holder.elim [] fun holder => holder.2.evicted) ++ m.shared.theQueue

variable [DecidableEq ι]

theorem held_moves {m m' : Monitor.State (ThreadsafeQueue T) ι (Op T) (Place T)}
    {note : Monitor.Note ι (Op T) (Outcome T)} (h : Monitor.Moves code m note m') :
    held m ++ (note.attempts.flatMap fun a => accepted a.2) =
      (note.attempts.flatMap fun a => removed a.2) ++ held m' := by
  cases h with
  | stay | call => simp [held, Monitor.Note.attempts]
  | enter _ hfree => simp [held, hfree, evicted_enter, Monitor.Note.attempts]
  | next _ hholder hstep =>
    simp [held, hholder, theQueue_of_next hstep, Monitor.Note.attempts]
  | wait _ hholder hstep => simp [held, hholder, evicted_of_wait hstep, Monitor.Note.attempts]
  | leave _ hholder hstep =>
    simpa [held, hholder, Monitor.Note.attempts] using theQueue_of_leave hstep

theorem held_run (m : Monitor.State (ThreadsafeQueue T) ι (Op T) (Place T))
    (w : List (Monitor.Event ι (Op T))) :
    held m ++ ((Mealy.outputs (Monitor.step code) m w).flatMap fun note =>
        note.attempts.flatMap fun a => accepted a.2) =
      ((Mealy.outputs (Monitor.step code) m w).flatMap fun note =>
        note.attempts.flatMap fun a => removed a.2) ++
        held (Mealy.state (Monitor.step code) m w) :=
  Mealy.conserved (fun m e => held_moves (Monitor.moves_step code m e)) m w

end

/-! ## Every run -/

/-- What a section keeps: a push keeps its bound, a push that makes room brings the queue within
its bound, and a wakeup takes the request and no element. -/
def Keeps (q : ThreadsafeQueue T) (op : Op T) : Prop :=
  match op with
  | .push _ maxSize => 0 < maxSize → q.size ≤ maxSize → (q.attempt op).2.size ≤ maxSize
  | .pushOverflow _ maxSize => (q.attempt op).2.size ≤ maxSize
  | .waitAndPop _ => ∀ outcome q', q.attempt op = (some outcome, q') →
      outcome.answer = .waited .wakeup →
      q.wakeupRequested = true ∧ q'.wakeupRequested = false ∧ q'.theQueue = q.theQueue
  | _ => True

theorem keeps_attempt (q : ThreadsafeQueue T) (op : Op T) : Keeps q op := by
  cases op with
  | push val maxSize => exact fun hpos hsize => size_push_le hpos hsize val
  | pushOverflow val maxSize => exact size_pushOverflow_le maxSize.2 q val
  | waitAndPop prebuffering =>
    intro outcome q' h hwakeup
    cases hpop : q.waitAndPop prebuffering with
    | none => simp [attempt, hpop] at h
    | some p =>
      obtain ⟨answer, q''⟩ := p
      simp only [attempt, hpop] at h
      cases h
      cases hwakeup
      obtain ⟨hrequest, rfl⟩ := waitAndPop_wakeup hpop
      exact ⟨hrequest, rfl, rfl⟩
  | _ => trivial

/-- In every interleaving the elements leave the queue in the order of their acceptance, each
once. What returns is what the operations return one at a time, in the order in which their
sections end, and every section keeps its bound or, on a wakeup, the elements. -/
theorem threads_fifo {ι : Type*} [DecidableEq ι] (w : List (Monitor.Event ι (Op T))) :
    let start : Monitor.State (ThreadsafeQueue T) ι (Op T) (Place T) := { shared := {} }
    let notes := Mealy.outputs (Monitor.step code) start w
    let m := Mealy.state (Monitor.step code) start w
    let log := notes.flatMap Monitor.Note.attempts
    (log.flatMap fun a => accepted a.2) = (log.flatMap fun a => removed a.2) ++ held m ∧
      log.map Prod.snd = Mealy.outputs attempt {} (log.map Prod.fst) ∧
      (m.holder = none → held m = m.shared.theQueue ∧
        m.shared = Mealy.state attempt {} (log.map Prod.fst)) ∧
      (∀ i, notes.flatMap (Monitor.Note.callsOf i) =
        notes.flatMap (Monitor.Note.returnsOf i) ++ (m.called i).toList) ∧
      Mealy.Along attempt Keeps {} (log.map Prod.fst) := by
  intro start notes m log
  have hstart : Monitor.Explains code attempt start {} := rfl
  have hserial := hstart.run ends_enter w
  refine ⟨?_, hserial.1, ?_, ?_, ?_⟩
  · rw [List.flatMap_assoc, List.flatMap_assoc]
    exact held_run start w
  · intro hfree
    exact ⟨by simp [held, hfree], hserial.2.of_free hfree⟩
  · intro i
    exact Monitor.calls_eq i start w
  · exact Mealy.along_of_forall fun op _ q => keeps_attempt q op

/-- The second thread calls while the first one is inside, and then evicts what it pushed. -/
def overflowRun : List (Monitor.Event Bool (Op ℕ)) :=
  [.call false (.push 1 0), .step false, .call true (.pushOverflow 2 ⟨1, Nat.one_pos⟩),
    .step true, .step false, .step true, .step true, .step true,
    .call false (.waitAndPop ⟨1, Nat.one_pos⟩), .step false, .step false]

theorem threads_fifo_overflowRun :
    let start : Monitor.State (ThreadsafeQueue ℕ) Bool (Op ℕ) (Place ℕ) := { shared := {} }
    let m := Mealy.state (Monitor.step code) start overflowRun
    let log := (Mealy.outputs (Monitor.step code) start overflowRun).flatMap Monitor.Note.attempts
    (log.flatMap fun a => removed a.2) = [1, 2] ∧
      m.shared = Mealy.state attempt {} (log.map Prod.fst) :=
  ⟨by decide, ((threads_fifo overflowRun).2.2.1 rfl).2⟩

end SourceCompanion.ThreadsafeQueue
