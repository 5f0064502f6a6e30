import SourceCompanion.OrderedQueue.Basic

/-! # The search ends

The loop of `pop` has no bound in the source. Here it runs with a number of steps and says when
they are not enough. One turn of the cycle always is.
-/

namespace SourceCompanion.OrderedQueue

variable {δ : Type*} {q : OrderedQueue δ}

/-- The search loop of `pop` with at most so many steps, and no answer if they are not enough. -/
def searchLoop (q : OrderedQueue δ) : ℕ → ℤ → Option (Option (ℤ × δ))
  | 0, _ => none
  | steps + 1, nextIndex =>
    match q.stock.lookup nextIndex with
    | some oqd => some (some (nextIndex, oqd))
    | none =>
      if q.size < q.capacity then some none
      else q.searchLoop steps ((nextIndex + 1).tmod q.maxIndex)

def popLoop (q : OrderedQueue δ) (steps : ℕ) : Option (Option (ℤ × δ) × OrderedQueue δ) :=
  if 0 < q.size then (q.searchLoop steps q.nextIndex).map fun _ => q.pop else some (none, q)

theorem searchLoop_eq_some {m n : ℕ} (hmn : m ≤ n) {a : ℤ} {found : Option (ℤ × δ)}
    (h : q.searchLoop m a = some found) :
    q.searchLoop n a = some found ∧ q.search n a = found := by
  induction m generalizing n a with
  | zero => cases h
  | succ m ih =>
    obtain ⟨n, rfl⟩ := Nat.exists_eq_add_of_le' hmn
    rw [← Nat.add_assoc] at *
    cases hlookup : q.stock.lookup a with
    | some oqd =>
      simp only [searchLoop, search, hlookup] at h ⊢
      exact ⟨h, Option.some.inj h⟩
    | none =>
      simp only [searchLoop, search, hlookup] at h ⊢
      split at h
      · rename_i hroom
        rw [if_pos hroom, if_pos hroom]
        exact ⟨h, Option.some.inj h⟩
      · rename_i hfull
        rw [if_neg hfull, if_neg hfull]
        exact ih (Nat.le_of_succ_le_succ (by omega)) h

theorem searchLoop_isSome {steps : ℕ} {a k : ℤ} (hk : k ∈ q.stock)
    (ha : 0 ≤ a ∧ a < q.maxIndex) (hd : Cyclic.dist q.maxIndex a k < steps) :
    (q.searchLoop steps a).isSome := by
  induction steps generalizing a with
  | zero =>
    have : 0 ≤ Cyclic.dist q.maxIndex a k := Cyclic.dist_nonneg q.maxIndex_pos
    omega
  | succ steps ih =>
    rw [searchLoop]
    split
    · rfl
    · rename_i hna
      rw [AList.lookup_eq_none] at hna
      split
      · rfl
      · apply ih (tmod_mem q.maxIndex_pos (by omega))
        rw [dist_step ha hna hk]
        push_cast at hd
        omega

theorem searchLoop_eq (hs : 0 < q.size) {steps : ℕ} (h : q.maxIndex.toNat ≤ steps) :
    q.searchLoop steps q.nextIndex = some (q.search q.maxIndex.toNat q.nextIndex) := by
  have hM := q.maxIndex_pos
  obtain ⟨k, hk⟩ := size_pos_iff.mp hs
  have hd : Cyclic.dist q.maxIndex q.nextIndex k < q.maxIndex := Cyclic.dist_lt hM
  have hturn : (q.searchLoop q.maxIndex.toNat q.nextIndex).isSome :=
    searchLoop_isSome hk nextIndex_mem (by omega)
  obtain ⟨found, hfound⟩ := Option.isSome_iff_exists.mp hturn
  rw [(searchLoop_eq_some h hfound).1, (searchLoop_eq_some le_rfl hfound).2]

theorem popLoop_eq (q : OrderedQueue δ) {steps : ℕ} (h : q.maxIndex.toNat ≤ steps) :
    q.popLoop steps = some q.pop := by
  unfold popLoop
  split
  · rename_i hs
    rw [searchLoop_eq hs h, Option.map_some]
  · rename_i hs
    rw [pop, if_neg hs]

theorem eq_pop_of_popLoop {steps : ℕ} {r : Option (ℤ × δ) × OrderedQueue δ}
    (h : q.popLoop steps = some r) : r = q.pop := by
  unfold popLoop at h
  split at h
  · obtain ⟨found, -, rfl⟩ := Option.map_eq_some_iff.mp h
    rfl
  · rename_i hs
    rw [pop, if_neg hs]
    exact (Option.some.inj h).symm

end SourceCompanion.OrderedQueue
