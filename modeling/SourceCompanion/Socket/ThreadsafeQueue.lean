import Mathlib.Data.List.Basic

/-! # The queue between two threads

Every operation is one critical section, so it is a function of the state of the queue. The pop
that waits has no result while its condition does not hold.
-/

namespace SourceCompanion

structure ThreadsafeQueue (T : Type*) where
  theQueue : List T := []
  wakeupRequested : Bool := false
deriving DecidableEq

inductive ThreadsafeQueue.Popped (T : Type*) where
  | value (popped : T)
  | wakeup
deriving DecidableEq

/-- Whether a push removed elements, and the new size. -/
structure ThreadsafeQueue.PushOverflowResult where
  overflowed : Bool
  newSize : ℕ
deriving DecidableEq

namespace ThreadsafeQueue

variable {T : Type*}

/-- Push an element, except that a queue with a maximum size discards it when it is full. The
answer is the new size. -/
def push (q : ThreadsafeQueue T) (val : T) (maxSize : ℕ) : ℕ × ThreadsafeQueue T :=
  let theQueue :=
    if maxSize = 0 then q.theQueue ++ [val]
    else if q.theQueue.length < maxSize then q.theQueue ++ [val]
    else q.theQueue
  (theQueue.length, { q with theQueue })

/-- The loop that removes elements from the front while there is no room for another one: what
it removes, and what stays. A maximum of zero is not allowed in the source. -/
def makeRoom (maxSize : ℕ) : List T → List T × List T
  | [] => ([], [])
  | popped :: theQueue =>
    if maxSize ≤ (popped :: theQueue).length then
      let (evicted, theQueue) := makeRoom maxSize theQueue
      (popped :: evicted, theQueue)
    else ([], popped :: theQueue)

def pushOverflow (q : ThreadsafeQueue T) (val : T) (maxSize : ℕ) :
    PushOverflowResult × ThreadsafeQueue T :=
  let (evicted, theQueue) := makeRoom maxSize q.theQueue
  let theQueue := theQueue ++ [val]
  ({ overflowed := !evicted.isEmpty, newSize := theQueue.length }, { q with theQueue })

/-- Push an element once the queue is smaller than the threshold. The answer is the new size. -/
def pushWaitIfFull (q : ThreadsafeQueue T) (val : T) (threshold : ℕ) :
    Option (ℕ × ThreadsafeQueue T) :=
  if threshold ≤ q.theQueue.length then none
  else
    let theQueue := q.theQueue ++ [val]
    some (theQueue.length, { q with theQueue })

def triggerWakeup (q : ThreadsafeQueue T) : ThreadsafeQueue T := { q with wakeupRequested := true }

def empty (q : ThreadsafeQueue T) : Bool := q.theQueue.isEmpty

def size (q : ThreadsafeQueue T) : ℕ := q.theQueue.length

def tryPop (q : ThreadsafeQueue T) : Option T × ThreadsafeQueue T :=
  match q.theQueue with
  | [] => (none, q)
  | popped :: theQueue => (some popped, { q with theQueue })

/-- Pop once there are enough elements, unless a wakeup is requested. -/
def waitAndPop (q : ThreadsafeQueue T) (prebuffering : ℕ) :
    Option (Popped T × ThreadsafeQueue T) :=
  if q.wakeupRequested then some (.wakeup, { q with wakeupRequested := false })
  else if q.theQueue.length < prebuffering then none
  else
    match q.theQueue with
    -- Without prebuffering the source has no element to take here.
    | [] => none
    | popped :: theQueue => some (.value popped, { q with theQueue })

@[simp] theorem theQueue_push_zero (q : ThreadsafeQueue T) (val : T) :
    (q.push val 0).2.theQueue = q.theQueue ++ [val] := rfl

@[simp] theorem theQueue_triggerWakeup (q : ThreadsafeQueue T) :
    q.triggerWakeup.theQueue = q.theQueue := rfl

@[simp] theorem size_push_zero (q : ThreadsafeQueue T) (val : T) :
    (q.push val 0).2.size = q.size + 1 := List.length_append

@[simp] theorem size_triggerWakeup (q : ThreadsafeQueue T) : q.triggerWakeup.size = q.size := rfl

@[simp] theorem size_tryPop (q : ThreadsafeQueue T) : q.tryPop.2.size = q.size - 1 := by
  unfold tryPop size
  split
  · simp [*]
  · simp [*]

theorem makeRoom_of_lt {maxSize : ℕ} {theQueue : List T} (h : theQueue.length < maxSize) :
    makeRoom maxSize theQueue = ([], theQueue) := by
  cases theQueue with
  | nil => rfl
  | cons popped theQueue => exact if_neg (Nat.not_le_of_lt h)

theorem makeRoom_cons_of_le {maxSize : ℕ} {popped : T} {theQueue : List T}
    (h : maxSize ≤ (popped :: theQueue).length) :
    makeRoom maxSize (popped :: theQueue) =
      (popped :: (makeRoom maxSize theQueue).1, (makeRoom maxSize theQueue).2) := if_pos h

theorem makeRoom_append (maxSize : ℕ) (theQueue : List T) :
    (makeRoom maxSize theQueue).1 ++ (makeRoom maxSize theQueue).2 = theQueue := by
  induction theQueue with
  | nil => rfl
  | cons popped theQueue ih =>
    by_cases hfull : maxSize ≤ (popped :: theQueue).length
    · rw [makeRoom_cons_of_le hfull, List.cons_append, ih]
    · rw [makeRoom_of_lt (Nat.lt_of_not_le hfull), List.nil_append]

theorem length_makeRoom {maxSize : ℕ} (h : 0 < maxSize) (theQueue : List T) :
    (makeRoom maxSize theQueue).2.length < maxSize := by
  induction theQueue with
  | nil => exact h
  | cons popped theQueue ih =>
    by_cases hfull : maxSize ≤ (popped :: theQueue).length
    · rwa [makeRoom_cons_of_le hfull]
    · rw [makeRoom_of_lt (Nat.lt_of_not_le hfull)]
      exact Nat.lt_of_not_le hfull

theorem size_push_le {q : ThreadsafeQueue T} {maxSize : ℕ} (hpos : 0 < maxSize)
    (hsize : q.size ≤ maxSize) (val : T) : (q.push val maxSize).2.size ≤ maxSize := by
  by_cases hroom : q.theQueue.length < maxSize
  · have hpushed : (q.push val maxSize).2.size = q.theQueue.length + 1 := by
      simp [push, size, hroom]
    omega
  · have hsame : q.push val maxSize = (q.theQueue.length, q) := by
      simp [push, Nat.ne_of_gt hpos, hroom]
    rwa [hsame]

theorem size_pushOverflow_le {maxSize : ℕ} (hpos : 0 < maxSize) (q : ThreadsafeQueue T) (val : T) :
    (q.pushOverflow val maxSize).2.size ≤ maxSize := by
  have hroom := length_makeRoom hpos q.theQueue
  have hsize : (q.pushOverflow val maxSize).2.size =
      (makeRoom maxSize q.theQueue).2.length + 1 := by simp [pushOverflow, size]
  omega

theorem waitAndPop_wakeup {q q' : ThreadsafeQueue T} {prebuffering : ℕ}
    (h : q.waitAndPop prebuffering = some (.wakeup, q')) :
    q.wakeupRequested = true ∧ q' = { q with wakeupRequested := false } := by
  unfold waitAndPop at h
  split at h
  · cases h
    exact ⟨‹_›, rfl⟩
  · split at h
    · cases h
    · split at h <;> cases h

theorem theQueue_tryPop (q : ThreadsafeQueue T) :
    q.theQueue = q.tryPop.1.toList ++ q.tryPop.2.theQueue := by
  unfold tryPop
  split
  · rfl
  · assumption

/-- A pop that waited takes the first element, or a wakeup leaves the elements alone. -/
theorem theQueue_waitAndPop {q q' : ThreadsafeQueue T} {prebuffering : ℕ} {result : Popped T}
    (h : q.waitAndPop prebuffering = some (result, q')) :
    (∃ popped, result = .value popped ∧ q.theQueue = popped :: q'.theQueue) ∨
      (result = .wakeup ∧ q'.theQueue = q.theQueue) := by
  unfold waitAndPop at h
  split at h
  · cases h
    exact Or.inr ⟨rfl, rfl⟩
  · split at h
    · cases h
    · split at h
      · cases h
      · cases h
        rename_i heq
        exact Or.inl ⟨_, rfl, heq⟩

end ThreadsafeQueue

end SourceCompanion
