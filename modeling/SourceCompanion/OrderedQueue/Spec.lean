import SourceCompanion.OrderedQueue.Search
import SourceCompanion.Run.Mealy

/-! # What a pop returns

The calls as the program makes them, where a pop returns a buffer and writes its index to
`returnedIndex`. In every state of a run a pop does what is specified without a search: it hands out
the frame after the last one, or the nearest one after it when the stock is full.
-/

namespace SourceCompanion.OrderedQueue

inductive Call where
  | push (index : ℕ) (oqd : OrderedQueueData)
  | pop (returnedIndex : Option ℤ)
deriving DecidableEq

/-- The buffer that `pop` returns when it found none. -/
def emptyData : OrderedQueueData := { buf := [], captureTimestamp := 0 }

/-- What `pop` returns, what `returnedIndex` points to then, and the queue. -/
structure Popped where
  oqd : OrderedQueueData
  returnedIndex : Option ℤ
  queue : OrderedQueue OrderedQueueData

/-- The return of `pop` after its search. -/
def returned (returnedIndex : Option ℤ) :
    Option (ℤ × OrderedQueueData) × OrderedQueue OrderedQueueData → Popped
  | (some (index, oqd), queue) => ⟨oqd, returnedIndex.map fun _ => index, queue⟩
  | (none, queue) => ⟨emptyData, returnedIndex, queue⟩

variable {q : OrderedQueue OrderedQueueData}

def popData (q : OrderedQueue OrderedQueueData) (returnedIndex : Option ℤ) (steps : ℕ) :
    Option Popped :=
  (q.popLoop steps).map (returned returnedIndex)

def call (q : OrderedQueue OrderedQueueData) : Call →
    Option (OrderedQueueData × Option ℤ) × OrderedQueue OrderedQueueData
  | .push index oqd => (none, q.push index oqd)
  | .pop returnedIndex =>
    let popped := returned returnedIndex q.pop
    (some (popped.oqd, popped.returnedIndex), popped.queue)

def IsInt32 (x : ℤ) : Prop := -2 ^ 31 ≤ x ∧ x < 2 ^ 31

instance (x : ℤ) : Decidable (IsInt32 x) := inferInstanceAs (Decidable (_ ∧ _))

/-- The sum of a pushed index and the range is representable. -/
def Representable (q : OrderedQueue OrderedQueueData) : Call → Prop
  | .push index _ => IsInt32 (index + q.maxIndex)
  | .pop _ => True

instance (q : OrderedQueue OrderedQueueData) : DecidablePred q.Representable
  | .push index _ => inferInstanceAs (Decidable (IsInt32 (index + q.maxIndex)))
  | .pop _ => inferInstanceAs (Decidable True)

/-- The sums that a call computes with indices. The search adds one to each index that it visits. -/
def sums (q : OrderedQueue OrderedQueueData) : Call → List ℤ
  | .push index _ => [index + q.maxIndex, q.key index + q.maxIndex - 1]
  | .pop _ => (q.lastIndexPop + 1) :: (List.range q.maxIndex.toNat).map fun i : ℕ => (i : ℤ) + 1

/-- The cyclic successor of the last popped index. -/
def successor (q : OrderedQueue OrderedQueueData) : ℤ := (q.lastIndexPop + 1) % q.maxIndex

/-- How far an index is after the last popped one, from one step to a whole cycle. -/
def distanceAfter (q : OrderedQueue OrderedQueueData) (k : ℤ) : ℤ :=
  Cyclic.dist q.maxIndex (q.lastIndexPop + 1) k + 1

/-- The queue without one of its entries, which was the last one popped. -/
def handOut (q : OrderedQueue OrderedQueueData) (k : ℤ) (hk : k ∈ q.stock) :
    OrderedQueue OrderedQueueData where
  maxIndex := q.maxIndex
  capacity := q.capacity
  duplicated := q.duplicated
  overruns := q.overruns
  lastIndexPop := k
  stock := q.stock.erase k
  maxIndex_pos := q.maxIndex_pos
  lastIndexPop_mem :=
    ⟨(show (-1 : ℤ) ≤ 0 by decide).trans (q.stock_mem k hk).1, (q.stock_mem k hk).2⟩
  stock_mem k' hk' := q.stock_mem k' (AList.mem_erase.mp hk').2

/-- The entry of an index is returned and removed. -/
def HandsOut (q : OrderedQueue OrderedQueueData) (returnedIndex : Option ℤ) (popped : Popped)
    (k : ℤ) : Prop :=
  ∃ (oqd : OrderedQueueData) (hk : k ∈ q.stock), q.stock.lookup k = some oqd ∧
    popped = ⟨oqd, returnedIndex.map fun _ => k, q.handOut k hk⟩

/-- What a pop does, by the stock. -/
structure PopSpec (q : OrderedQueue OrderedQueueData) (returnedIndex : Option ℤ) (popped : Popped) :
    Prop where
  empty : q.size = 0 → popped = ⟨emptyData, returnedIndex, q⟩
  next : q.successor ∈ q.stock → q.HandsOut returnedIndex popped q.successor
  skip : 0 < q.size → q.successor ∉ q.stock → q.capacity ≤ q.size →
    ∃ k, q.HandsOut returnedIndex popped k ∧
      ∀ k' ∈ q.stock, k' ≠ k → q.distanceAfter k < q.distanceAfter k'
  wait : 0 < q.size → q.successor ∉ q.stock → q.size < q.capacity →
    popped = ⟨emptyData, returnedIndex, q⟩

theorem successor_eq : q.successor = q.nextIndex := nextIndex_eq.symm

theorem pop_eq_handOut {k : ℤ} {oqd : OrderedQueueData} (h : q.pop.1 = some (k, oqd)) :
    ∃ hk : k ∈ q.stock, q.pop = (some (k, oqd), q.handOut k hk) := by
  revert h
  unfold pop
  split
  · split
    · rintro ⟨⟩
      rename_i hsearch
      exact ⟨mem_of_lookup (search_mem hsearch), rfl⟩
    · rintro ⟨⟩
  · rintro ⟨⟩

theorem distanceAfter_lt {k k' : ℤ} (hk : k ∈ q.stock) (hk' : k' ∈ q.stock) (hne : k' ≠ k)
    (hle : Cyclic.dist q.maxIndex q.nextIndex k ≤ Cyclic.dist q.maxIndex q.nextIndex k') :
    q.distanceAfter k < q.distanceAfter k' := by
  unfold distanceAfter
  rw [nextIndex_eq, Cyclic.dist_emod_left, Cyclic.dist_emod_left] at hle
  apply Int.add_lt_add_right
  apply lt_of_le_of_ne hle
  intro heq
  exact hne (Cyclic.eq_of_dist_eq (q.stock_mem k hk) (q.stock_mem k' hk') heq).symm

/-- In every state a pop does what is specified. -/
theorem popSpec (q : OrderedQueue OrderedQueueData) (returnedIndex : Option ℤ) :
    PopSpec q returnedIndex (returned returnedIndex q.pop) := by
  rcases pop_cases q with ⟨hpop, hnone⟩ | ⟨q', k, oqd, hpop, hframe⟩
  · rw [hpop]
    constructor
    · exact fun _ => rfl
    · intro hnext
      rw [successor_eq] at hnext
      rcases hnone with hempty | ⟨hgap, -⟩
      · exact absurd (size_pos_iff.mpr ⟨_, hnext⟩) hempty.not_gt
      · exact absurd hnext hgap
    · intro hpos hgap hfull
      rcases hnone with hempty | ⟨-, hroom⟩
      · exact absurd hpos hempty.not_gt
      · exact absurd hroom (Nat.not_lt.mpr hfull)
    · exact fun _ _ _ => rfl
  · obtain ⟨hk, hqueue⟩ := pop_eq_handOut (congrArg Prod.fst hpop)
    have hhands : q.HandsOut returnedIndex (returned returnedIndex q.pop) k :=
      ⟨oqd, hk, hframe.lookup, by rw [hqueue]; rfl⟩
    constructor
    · intro hempty
      exact absurd (size_pos_iff.mpr ⟨k, hk⟩) hempty.not_gt
    · intro hnext
      rw [successor_eq] at hnext ⊢
      rw [← hframe.eq_nextIndex hnext]
      exact hhands
    · intro _ _ _
      exact ⟨k, hhands, fun k' hk' hne => distanceAfter_lt hk hk' hne (hframe.least k' hk')⟩
    · intro _ hgap hroom
      rw [successor_eq] at hgap
      exact absurd hroom (Nat.not_lt.mpr (hframe.gap hgap))

structure Reached (maxIndex : ℤ) (capacity : ℕ) (q : OrderedQueue OrderedQueueData) : Prop where
  maxIndex_eq : q.maxIndex = maxIndex
  capacity_eq : q.capacity = capacity
  size_le : q.size ≤ capacity
  lastIndexPop : 0 < q.size → 0 ≤ q.lastIndexPop

variable {maxIndex : ℤ} {capacity : ℕ}

theorem reached_push (h : Reached maxIndex capacity q) (index : ℕ) (oqd : OrderedQueueData) :
    Reached maxIndex capacity (q.push index oqd) := by
  constructor
  · rw [maxIndex_push, h.maxIndex_eq]
  · rw [capacity_push, h.capacity_eq]
  · rcases Nat.lt_or_ge q.size q.capacity with hroom | hfull
    · unfold size
      rw [stock_push_of_lt hroom, AList.keys_insert, List.length_cons, ← h.capacity_eq]
      exact Nat.succ_le_of_lt ((Nat.lt_of_le_of_lt (List.length_erase_le ..) hroom))
    · unfold size
      rw [stock_push_of_full hfull]
      exact h.size_le
  · intro _
    have hlast := q.lastIndexPop_mem
    rw [lastIndexPop_push]
    split
    · exact Int.emod_nonneg _ q.maxIndex_pos.ne'
    · omega

theorem reached_pop (h : Reached maxIndex capacity q) : Reached maxIndex capacity q.pop.2 := by
  rcases pop_cases q with ⟨hpop, -⟩ | ⟨q', k, oqd, hpop, hframe⟩
  · rw [hpop]
    exact h
  · rw [hpop]
    constructor
    · exact hframe.maxIndex.trans h.maxIndex_eq
    · exact hframe.capacity.trans h.capacity_eq
    · exact (Nat.le_succ _).trans (hframe.size.le.trans h.size_le)
    · intro _
      rw [hframe.lastIndexPop]
      exact (q.stock_mem k hframe.mem).1

theorem reached_call (h : Reached maxIndex capacity q) (c : Call) :
    Reached maxIndex capacity (q.call c).2 := by
  cases c with
  | push index oqd => exact reached_push h index oqd
  | pop returnedIndex =>
    have hqueue : (q.call (.pop returnedIndex)).2 = q.pop.2 := by
      unfold call returned
      rcases q.pop with ⟨_ | ⟨index, oqd⟩, queue⟩ <;> rfl
    rw [hqueue]
    exact reached_pop h

theorem isInt32_sums (hM : IsInt32 q.maxIndex) (c : Call) (h : q.Representable c) :
    ∀ sum ∈ q.sums c, IsInt32 sum := by
  have hpos := q.maxIndex_pos
  have hlast := q.lastIndexPop_mem
  unfold IsInt32 at *
  cases c with
  | push index oqd =>
    have hkey : 0 ≤ q.key index ∧ q.key index ≤ index := by
      have hdiv := Int.emod_add_mul_ediv (index : ℤ) q.maxIndex
      have hquot : 0 ≤ q.maxIndex * (index / q.maxIndex : ℤ) :=
        Int.mul_nonneg hpos.le (Int.ediv_nonneg (Int.natCast_nonneg index) hpos.le)
      rw [key_eq]
      exact ⟨Int.emod_nonneg _ hpos.ne', by omega⟩
    have hsum : (index : ℤ) + q.maxIndex < 2 ^ 31 := h.2
    simp only [sums, List.mem_cons, List.not_mem_nil, or_false, forall_eq_or_imp, forall_eq]
    omega
  | pop returnedIndex =>
    intro sum hsum
    rcases List.mem_cons.mp hsum with rfl | hsum
    · omega
    · obtain ⟨i, hi, rfl⟩ := List.mem_map.mp hsum
      rw [List.mem_range] at hi
      omega

theorem reached_run (h : 0 < maxIndex) (calls : List Call) :
    Reached maxIndex capacity (Mealy.state call (empty maxIndex capacity h) calls) := by
  apply Mealy.invariant calls
  · exact ⟨rfl, rfl, Nat.zero_le _, fun hpos => absurd hpos (lt_irrefl 0)⟩
  · exact fun q c hq => reached_call hq c

/-- The stock is within its bounds, and a pop with as many steps as there are indices ends and does
what is specified. -/
structure Specified (maxIndex : ℤ) (capacity : ℕ) (q : OrderedQueue OrderedQueueData) : Prop where
  size_le : q.size ≤ capacity
  keys : ∀ k ∈ q.stock, 0 ≤ k ∧ k < maxIndex
  lastIndexPop : 0 < q.size → 0 ≤ q.lastIndexPop ∧ q.lastIndexPop < maxIndex
  pop : ∀ returnedIndex, ∃ popped, PopSpec q returnedIndex popped ∧
    ∀ steps, maxIndex.toNat ≤ steps → q.popData returnedIndex steps = some popped

theorem Reached.specified (h : Reached maxIndex capacity q) : Specified maxIndex capacity q := by
  constructor
  · exact h.size_le
  · intro k hk
    rw [← h.maxIndex_eq]
    exact q.stock_mem k hk
  · intro hpos
    rw [← h.maxIndex_eq]
    exact ⟨h.lastIndexPop hpos, q.lastIndexPop_mem.2⟩
  · intro returnedIndex
    refine ⟨_, popSpec q returnedIndex, fun steps hsteps => ?_⟩
    rw [← h.maxIndex_eq] at hsteps
    rw [popData, popLoop_eq q hsteps, Option.map_some]

/-- Every state of a run is as specified, and no sum of a call overflows if the sums of the pushed
indices and the range do not. -/
theorem specified_run (h : 0 < maxIndex) (hM : IsInt32 maxIndex) (capacity : ℕ)
    (calls : List Call) :
    (∀ i, Specified maxIndex capacity
      (Mealy.state call (empty maxIndex capacity h) (calls.take i))) ∧
    (Mealy.Along call Representable (empty maxIndex capacity h) calls →
      Mealy.Along call (fun q c => ∀ sum ∈ q.sums c, IsInt32 sum) (empty maxIndex capacity h)
        calls) := by
  constructor
  · exact fun i => (reached_run h (calls.take i)).specified
  · intro hcalls
    apply hcalls.of_invariant (I := Reached maxIndex capacity) (reached_run h [])
    · exact fun q c hq _ => reached_call hq c
    · intro q c hq hc
      exact isInt32_sums (hq.maxIndex_eq ▸ hM) c hc

/-- Two frames, a pop, and a frame more fill the stock after a gap. -/
def gapCalls : List Call :=
  [.push 7 ⟨[1], 0⟩, .push 4 ⟨[2], 0⟩, .pop none, .push 0 ⟨[3], 0⟩]

theorem specified_run_gap :
    Specified 5 2 (Mealy.state call (empty 5 2 (by decide)) gapCalls) ∧
      ((Mealy.state call (empty 5 2 (by decide)) gapCalls).popData (some 9) 5).map
        (fun popped => (popped.oqd, popped.returnedIndex)) = some (⟨[2], 0⟩, some 4) :=
  ⟨(specified_run (by decide) (by decide) 2 gapCalls).1 4, by decide⟩

end SourceCompanion.OrderedQueue
