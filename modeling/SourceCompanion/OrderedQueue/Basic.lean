import Mathlib.Data.List.AList
import Mathlib.Data.Int.Order.Lemmas
import Mathlib.Tactic.Linarith
import SourceCompanion.Cyclic.Distance

/-! # The ordered queue

Frames are stored under their index modulo `maxIndex` and handed out from the
index after the last one popped. A gap is skipped only when the stock has grown
to the capacity, by searching the cycle for the next stored index.
-/

namespace SourceCompanion

/-- A stored frame: its bytes and when it was captured, in nanoseconds since the epoch. -/
structure OrderedQueueData where
  buf : List UInt8
  captureTimestamp : ℤ
  deriving DecidableEq, Repr

/-- A queue that receives indexed frames out of order and returns them in order.
The entries are opaque to the queue, so their type is a parameter. -/
structure OrderedQueue (δ : Type*) where
  maxIndex : ℤ
  capacity : ℕ
  duplicated : ℕ
  overruns : ℕ
  lastIndexPop : ℤ
  stock : AList fun _ : ℤ => δ
  maxIndex_pos : 0 < maxIndex
  lastIndexPop_mem : -1 ≤ lastIndexPop ∧ lastIndexPop < maxIndex
  stock_mem : ∀ k ∈ stock, 0 ≤ k ∧ k < maxIndex

namespace OrderedQueue

variable {δ : Type*}

def empty (maxIndex : ℤ) (capacity : ℕ) (h : 0 < maxIndex) : OrderedQueue δ where
  maxIndex := maxIndex
  capacity := capacity
  duplicated := 0
  overruns := 0
  lastIndexPop := -1
  stock := ∅
  maxIndex_pos := h
  lastIndexPop_mem := ⟨le_rfl, by omega⟩
  stock_mem := fun k hk => absurd hk (AList.notMem_empty k)

def size (q : OrderedQueue δ) : ℕ := q.stock.keys.length

theorem tmod_mem {M : ℤ} (hM : 0 < M) {a : ℤ} (ha : 0 ≤ a) : 0 ≤ a.tmod M ∧ a.tmod M < M :=
  ⟨Int.tmod_nonneg _ ha, Int.tmod_lt_of_pos _ hM⟩

def key (q : OrderedQueue δ) (index : ℕ) : ℤ := (index + q.maxIndex).tmod q.maxIndex

theorem key_mem (q : OrderedQueue δ) (index : ℕ) :
    0 ≤ q.key index ∧ q.key index < q.maxIndex :=
  tmod_mem q.maxIndex_pos (by have := q.maxIndex_pos; omega)

def initLastIndexPop (q : OrderedQueue δ) (index : ℤ) : ℤ :=
  if q.lastIndexPop = -1 then (index + q.maxIndex - 1).tmod q.maxIndex else q.lastIndexPop

theorem initLastIndexPop_mem (q : OrderedQueue δ) {index : ℤ} (h : 0 ≤ index) :
    -1 ≤ q.initLastIndexPop index ∧ q.initLastIndexPop index < q.maxIndex := by
  unfold initLastIndexPop
  split
  · have hp := q.maxIndex_pos
    obtain ⟨h₀, h₁⟩ := tmod_mem hp (show 0 ≤ index + q.maxIndex - 1 by omega)
    exact ⟨by omega, h₁⟩
  · exact q.lastIndexPop_mem

/-- Store a frame under its index modulo the range, replacing a frame already there.
A full stock drops the frame. -/
def push (q : OrderedQueue δ) (index : ℕ) (oqd : δ) : OrderedQueue δ :=
  if q.size < q.capacity then
    { q with
      duplicated := if q.key index ∈ q.stock then q.duplicated + 1 else q.duplicated
      lastIndexPop := q.initLastIndexPop (q.key index)
      stock := q.stock.insert (q.key index) oqd
      lastIndexPop_mem := q.initLastIndexPop_mem (q.key_mem index).1
      stock_mem := fun k hk => by
        rcases (AList.mem_insert _).mp hk with rfl | hk
        · exact q.key_mem index
        · exact q.stock_mem k hk }
  else
    { q with
      overruns := q.overruns + 1
      lastIndexPop := q.initLastIndexPop (q.key index)
      lastIndexPop_mem := q.initLastIndexPop_mem (q.key_mem index).1 }

def availableData (q : OrderedQueue δ) : Bool := 0 < q.size

/-- The search loop of `pop` from an index: the entry found there, or further along the
cycle if the stock is full. The loop breaks out on a gap in a stock below capacity. -/
def search (q : OrderedQueue δ) : ℕ → ℤ → Option (ℤ × δ)
  | 0, _ => none
  | fuel + 1, nextIndex =>
    match q.stock.lookup nextIndex with
    | some oqd => some (nextIndex, oqd)
    | none =>
      if q.size < q.capacity then none
      else q.search fuel ((nextIndex + 1).tmod q.maxIndex)

theorem search_mem {q : OrderedQueue δ} {fuel : ℕ} {a k : ℤ} {oqd : δ}
    (h : q.search fuel a = some (k, oqd)) : q.stock.lookup k = some oqd := by
  induction fuel generalizing a with
  | zero => simp [search] at h
  | succ fuel ih =>
    rw [search] at h
    split at h
    · rename_i d hd
      obtain ⟨rfl, rfl⟩ := Prod.mk.inj (Option.some.inj h)
      exact hd
    · split at h
      · simp at h
      · exact ih h

theorem mem_of_lookup {q : OrderedQueue δ} {k : ℤ} {oqd : δ}
    (h : q.stock.lookup k = some oqd) : k ∈ q.stock :=
  AList.lookup_isSome.mp (by simp [h])

def nextIndex (q : OrderedQueue δ) : ℤ := (q.lastIndexPop + 1).tmod q.maxIndex

/-- Remove and return the next frame, or answer `none` (an empty buffer) and leave the
queue as it is. One turn of the cycle is enough fuel, see `search_eq_none_iff`. -/
def pop (q : OrderedQueue δ) : Option (ℤ × δ) × OrderedQueue δ :=
  if 0 < q.size then
    match h : q.search q.maxIndex.toNat q.nextIndex with
    | some (index, oqd) =>
      (some (index, oqd),
        { q with
          lastIndexPop := index
          stock := q.stock.erase index
          lastIndexPop_mem := by
            have := q.stock_mem _ (mem_of_lookup (search_mem h))
            omega
          stock_mem := fun k hk => q.stock_mem k (AList.mem_erase.mp hk).2 })
    | none => (none, q)
  else (none, q)

section Spec

variable {q : OrderedQueue δ}

@[simp] theorem maxIndex_empty (M : ℤ) (c : ℕ) (h : 0 < M) :
    (empty M c h : OrderedQueue δ).maxIndex = M := rfl

@[simp] theorem capacity_empty (M : ℤ) (c : ℕ) (h : 0 < M) :
    (empty M c h : OrderedQueue δ).capacity = c := rfl

@[simp] theorem lookup_empty (M : ℤ) (c : ℕ) (h : 0 < M) (k : ℤ) :
    (empty M c h : OrderedQueue δ).stock.lookup k = none := AList.lookup_empty k

@[simp] theorem maxIndex_push (index : ℕ) (oqd : δ) : (q.push index oqd).maxIndex = q.maxIndex := by
  unfold push; split <;> rfl

@[simp] theorem capacity_push (index : ℕ) (oqd : δ) : (q.push index oqd).capacity = q.capacity := by
  unfold push; split <;> rfl

theorem key_eq (index : ℕ) : q.key index = (index : ℤ) % q.maxIndex := by
  have := q.maxIndex_pos
  rw [key, Int.tmod_eq_emod_of_nonneg (by omega), Int.add_emod_right]

theorem lastIndexPop_push (index : ℕ) (oqd : δ) :
    (q.push index oqd).lastIndexPop =
      if q.lastIndexPop = -1 then ((index : ℤ) - 1) % q.maxIndex else q.lastIndexPop := by
  have hl : (q.push index oqd).lastIndexPop = q.initLastIndexPop (q.key index) := by
    unfold push; split <;> rfl
  rw [hl, initLastIndexPop]
  split
  · have hp := q.maxIndex_pos
    have hk := q.key_mem index
    rw [Int.tmod_eq_emod_of_nonneg (by omega), key_eq, add_sub_right_comm, Int.add_emod_right]
    simp [Int.sub_emod]
  · rfl

theorem stock_push_of_lt (h : q.size < q.capacity) (index : ℕ) (oqd : δ) :
    (q.push index oqd).stock = q.stock.insert (q.key index) oqd := by
  simp [push, h]

theorem stock_push_of_full (h : q.capacity ≤ q.size) (index : ℕ) (oqd : δ) :
    (q.push index oqd).stock = q.stock := by
  simp [push, Nat.not_lt.mpr h]

theorem lookup_of_lookup_push {index : ℕ} {oqd d : δ} {k : ℤ}
    (h : (q.push index oqd).stock.lookup k = some d) : d = oqd ∨ q.stock.lookup k = some d := by
  by_cases hs : q.size < q.capacity
  · rw [stock_push_of_lt hs] at h
    by_cases hk : k = q.key index
    · subst hk
      rw [AList.lookup_insert] at h
      exact Or.inl (Option.some.inj h).symm
    · rw [AList.lookup_insert_ne hk] at h
      exact Or.inr h
  · rw [stock_push_of_full (Nat.not_lt.mp hs)] at h
    exact Or.inr h

theorem size_pos_iff : 0 < q.size ↔ ∃ k, k ∈ q.stock := by
  simp only [size, List.length_pos_iff_exists_mem, AList.mem_keys]

theorem nextIndex_eq : q.nextIndex = (q.lastIndexPop + 1) % q.maxIndex :=
  Int.tmod_eq_emod_of_nonneg (by have := q.lastIndexPop_mem; omega)

theorem nextIndex_mem : 0 ≤ q.nextIndex ∧ q.nextIndex < q.maxIndex :=
  tmod_mem q.maxIndex_pos (by have := q.lastIndexPop_mem; omega)

theorem dist_step {a k : ℤ} (ha : 0 ≤ a ∧ a < q.maxIndex) (hna : a ∉ q.stock) (hk : k ∈ q.stock) :
    Cyclic.dist q.maxIndex ((a + 1).tmod q.maxIndex) k = Cyclic.dist q.maxIndex a k - 1 := by
  have hM := q.maxIndex_pos
  have hpos : 0 < Cyclic.dist q.maxIndex a k := by
    refine lt_of_le_of_ne (Cyclic.dist_nonneg hM) fun h => hna ?_
    rwa [Cyclic.eq_of_dist_eq_zero ha (q.stock_mem k hk) h.symm]
  rw [Int.tmod_eq_emod_of_nonneg (by omega), Cyclic.dist_emod_left, Cyclic.dist_succ_left hM hpos]

theorem search_least {fuel : ℕ} {a k : ℤ} {oqd : δ} (ha : 0 ≤ a ∧ a < q.maxIndex)
    (h : q.search fuel a = some (k, oqd)) {k' : ℤ} (hk' : k' ∈ q.stock) :
    Cyclic.dist q.maxIndex a k ≤ Cyclic.dist q.maxIndex a k' := by
  induction fuel generalizing a with
  | zero => simp [search] at h
  | succ fuel ih =>
    rw [search] at h
    split at h
    · obtain ⟨rfl, -⟩ := Prod.mk.inj (Option.some.inj h)
      simpa [Cyclic.dist] using Cyclic.dist_nonneg q.maxIndex_pos
    · rename_i hna
      rw [AList.lookup_eq_none] at hna
      split at h
      · simp at h
      · have hk := mem_of_lookup (search_mem h)
        have hle := ih (tmod_mem q.maxIndex_pos (by omega)) h
        rw [dist_step ha hna hk, dist_step ha hna hk'] at hle
        omega

theorem search_isSome {fuel : ℕ} {a k : ℤ} (hf : q.capacity ≤ q.size) (hk : k ∈ q.stock)
    (ha : 0 ≤ a ∧ a < q.maxIndex) (hd : Cyclic.dist q.maxIndex a k < fuel) :
    (q.search fuel a).isSome := by
  induction fuel generalizing a with
  | zero =>
    have : 0 ≤ Cyclic.dist q.maxIndex a k := Cyclic.dist_nonneg q.maxIndex_pos
    omega
  | succ fuel ih =>
    rw [search]
    split
    · rfl
    · rename_i hna
      rw [AList.lookup_eq_none] at hna
      rw [if_neg (Nat.not_lt.mpr hf)]
      refine ih (tmod_mem q.maxIndex_pos (by omega)) ?_
      rw [dist_step ha hna hk]
      push_cast at hd; omega

/-- The search of a nonempty stock gives up only on a gap in a stock below capacity. -/
theorem search_eq_none_iff (hs : 0 < q.size) :
    q.search q.maxIndex.toNat q.nextIndex = none ↔
      q.nextIndex ∉ q.stock ∧ q.size < q.capacity := by
  have hM := q.maxIndex_pos
  obtain ⟨n, hn⟩ : ∃ n, q.maxIndex.toNat = n + 1 := ⟨q.maxIndex.toNat - 1, by omega⟩
  constructor
  · intro h
    have hlt : q.size < q.capacity := by
      by_contra hf
      obtain ⟨k, hk⟩ := size_pos_iff.mp hs
      have hd : Cyclic.dist q.maxIndex q.nextIndex k < q.maxIndex := Cyclic.dist_lt hM
      have hsome : (q.search q.maxIndex.toNat q.nextIndex).isSome :=
        search_isSome (Nat.not_lt.mp hf) hk nextIndex_mem (by omega)
      simp [h] at hsome
    refine ⟨fun hmem => ?_, hlt⟩
    obtain ⟨d, hd⟩ := Option.isSome_iff_exists.mp (AList.lookup_isSome.mpr hmem)
    simp [hn, search, hd] at h
  · rintro ⟨hna, hlt⟩
    simp [hn, search, AList.lookup_eq_none.mpr hna, hlt]

end Spec

/-- What a pop that returns a frame does: the frame is the stored one next on the cycle,
either directly after the last one or past a gap in a full stock. -/
structure PopsFrame (q q' : OrderedQueue δ) (k : ℤ) (oqd : δ) : Prop where
  lookup : q.stock.lookup k = some oqd
  least : ∀ k' ∈ q.stock, Cyclic.dist q.maxIndex q.nextIndex k ≤
    Cyclic.dist q.maxIndex q.nextIndex k'
  gap : q.nextIndex ∉ q.stock → q.capacity ≤ q.size
  maxIndex : q'.maxIndex = q.maxIndex
  capacity : q'.capacity = q.capacity
  lastIndexPop : q'.lastIndexPop = k
  stock : q'.stock = q.stock.erase k

/-- A pop either returns a frame, or leaves the queue as it is because it is empty or has a
gap and room left. -/
theorem pop_cases (q : OrderedQueue δ) :
    (q.pop = (none, q) ∧ (q.size = 0 ∨ q.nextIndex ∉ q.stock ∧ q.size < q.capacity)) ∨
      ∃ q' k oqd, q.pop = (some (k, oqd), q') ∧ PopsFrame q q' k oqd := by
  unfold pop
  split
  · rename_i hs
    split
    · rename_i k oqd h
      refine Or.inr ⟨_, _, _, rfl, search_mem h, fun k' => search_least nextIndex_mem h, ?_,
        rfl, rfl, rfl, rfl⟩
      intro hna
      by_contra hlt
      simp [(search_eq_none_iff hs).mpr ⟨hna, Nat.not_le.mp hlt⟩] at h
    · rename_i h
      exact Or.inl ⟨rfl, Or.inr ((search_eq_none_iff hs).mp h)⟩
  · exact Or.inl ⟨rfl, Or.inl (by omega)⟩

theorem PopsFrame.mem {q q' : OrderedQueue δ} {k : ℤ} {oqd : δ} (h : PopsFrame q q' k oqd) :
    k ∈ q.stock := mem_of_lookup h.lookup

theorem PopsFrame.lookup_of_lookup {q q' : OrderedQueue δ} {k k' : ℤ} {oqd d : δ}
    (h : PopsFrame q q' k oqd) (hd : q'.stock.lookup k' = some d) : q.stock.lookup k' = some d := by
  have hne : k' ≠ k := by
    rintro rfl
    simp [h.stock, AList.lookup_erase] at hd
  rwa [h.stock, AList.lookup_erase_ne hne] at hd

theorem PopsFrame.size {q q' : OrderedQueue δ} {k : ℤ} {oqd : δ} (h : PopsFrame q q' k oqd) :
    q'.size + 1 = q.size := by
  have hpos : 0 < q.size := size_pos_iff.mpr ⟨k, h.mem⟩
  simp only [OrderedQueue.size] at hpos ⊢
  rw [h.stock, AList.keys_erase, List.length_erase_of_mem (AList.mem_keys.mpr h.mem)]
  omega

theorem PopsFrame.eq_nextIndex {q q' : OrderedQueue δ} {k : ℤ} {oqd : δ}
    (h : PopsFrame q q' k oqd) (hn : q.nextIndex ∈ q.stock) : k = q.nextIndex := by
  have hle := h.least _ hn
  have h0 : Cyclic.dist q.maxIndex q.nextIndex q.nextIndex = 0 := by simp [Cyclic.dist]
  have hk : 0 ≤ Cyclic.dist q.maxIndex q.nextIndex k := Cyclic.dist_nonneg q.maxIndex_pos
  exact (Cyclic.eq_of_dist_eq_zero nextIndex_mem (q.stock_mem _ h.mem) (by omega)).symm

theorem pop_fst (q : OrderedQueue δ) :
    q.pop.1 = if 0 < q.size then q.search q.maxIndex.toNat q.nextIndex else none := by
  unfold pop
  split
  · split <;> simp [*]
  · rfl

section Erasure

variable {ε : Type*}

/-- Two queues that agree but for a relabelling of their entries. -/
structure Maps (f : δ → ε) (q : OrderedQueue δ) (p : OrderedQueue ε) : Prop where
  maxIndex : p.maxIndex = q.maxIndex
  capacity : p.capacity = q.capacity
  lastIndexPop : p.lastIndexPop = q.lastIndexPop
  keys : p.stock.keys = q.stock.keys
  lookup : ∀ k, p.stock.lookup k = (q.stock.lookup k).map f

variable {f : δ → ε} {q : OrderedQueue δ} {p : OrderedQueue ε}

theorem maps_empty (f : δ → ε) (M : ℤ) (c : ℕ) (h : 0 < M) :
    Maps f (empty M c h) (empty M c h) where
  maxIndex := rfl
  capacity := rfl
  lastIndexPop := rfl
  keys := rfl
  lookup k := by simp

theorem Maps.size (h : Maps f q p) : p.size = q.size := by
  rw [OrderedQueue.size, h.keys]; rfl

theorem Maps.key (h : Maps f q p) (index : ℕ) : p.key index = q.key index := by
  rw [OrderedQueue.key, h.maxIndex]; rfl

theorem Maps.push (h : Maps f q p) (index : ℕ) (oqd : δ) :
    Maps f (q.push index oqd) (p.push index (f oqd)) where
  maxIndex := by simpa using h.maxIndex
  capacity := by simpa using h.capacity
  lastIndexPop := by
    rw [lastIndexPop_push, lastIndexPop_push, h.lastIndexPop, h.maxIndex]
  keys := by
    by_cases hs : q.size < q.capacity
    · rw [stock_push_of_lt hs, stock_push_of_lt (by rwa [h.size, h.capacity]),
        AList.keys_insert, AList.keys_insert, h.key, h.keys]
    · rw [stock_push_of_full (Nat.not_lt.mp hs),
        stock_push_of_full (by rw [h.size, h.capacity]; omega), h.keys]
  lookup k := by
    by_cases hs : q.size < q.capacity
    · rw [stock_push_of_lt hs, stock_push_of_lt (by rwa [h.size, h.capacity]), h.key]
      by_cases hk : k = q.key index
      · subst hk
        rw [AList.lookup_insert, AList.lookup_insert, Option.map_some]
      · simp [AList.lookup_insert_ne hk, h.lookup]
    · rw [stock_push_of_full (Nat.not_lt.mp hs),
        stock_push_of_full (by rw [h.size, h.capacity]; omega), h.lookup]

theorem Maps.search (h : Maps f q p) (fuel : ℕ) (a : ℤ) :
    p.search fuel a = (q.search fuel a).map (Prod.map id f) := by
  induction fuel generalizing a with
  | zero => rfl
  | succ fuel ih =>
    rw [OrderedQueue.search, OrderedQueue.search, h.lookup, h.size, h.capacity, h.maxIndex]
    cases q.stock.lookup a with
    | some d => rfl
    | none => dsimp only [Option.map_none]; split <;> simp [ih]

theorem Maps.pop (h : Maps f q p) :
    p.pop.1 = q.pop.1.map (Prod.map id f) ∧ Maps f q.pop.2 p.pop.2 := by
  have hfst : p.pop.1 = q.pop.1.map (Prod.map id f) := by
    have hn : p.nextIndex = q.nextIndex := by
      rw [nextIndex, nextIndex, h.lastIndexPop, h.maxIndex]
    rw [pop_fst, pop_fst, h.size, h.search, h.maxIndex, hn]
    split <;> rfl
  refine ⟨hfst, ?_⟩
  rcases pop_cases q with ⟨hq, -⟩ | ⟨q', k, d, hq, hqf⟩ <;>
    rcases pop_cases p with ⟨hp, -⟩ | ⟨p', k', e, hp, hpf⟩ <;>
    simp only [hq, hp, Option.map_none, Option.map_some, reduceCtorEq, Option.some.injEq,
      Prod.map_apply, id_eq, Prod.mk.injEq] at hfst ⊢
  · exact h
  · obtain ⟨rfl, rfl⟩ := hfst
    refine ⟨by rw [hpf.maxIndex, hqf.maxIndex, h.maxIndex],
      by rw [hpf.capacity, hqf.capacity, h.capacity], by rw [hpf.lastIndexPop, hqf.lastIndexPop],
      by rw [hpf.stock, hqf.stock, AList.keys_erase, AList.keys_erase, h.keys], fun i => ?_⟩
    rw [hpf.stock, hqf.stock]
    by_cases hi : i = k'
    · subst hi
      rw [AList.lookup_erase, AList.lookup_erase, Option.map_none]
    · simp [AList.lookup_erase_ne hi, h.lookup]

end Erasure

end OrderedQueue
end SourceCompanion
