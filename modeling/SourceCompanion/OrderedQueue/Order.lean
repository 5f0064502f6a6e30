import Mathlib.Data.List.ReduceOption
import SourceCompanion.Run.Mealy
import SourceCompanion.OrderedQueue.Basic

/-! # Order of the popped frames

Frames carry an absolute sequence number and are pushed under that number modulo the
index range. The numbers popped are strictly increasing as long as no frame is stored
that does not come after the last popped one. A late or duplicated frame that is stored
stays in the stock and is handed out after frames that follow it.
-/

namespace SourceCompanion.OrderedQueue

variable {δ : Type*}

inductive Op (δ : Type*) where
  | push (number : ℕ) (oqd : δ)
  | pop
  deriving DecidableEq, Repr

/-- The queue with every entry tagged by its number, and the number of the last popped
frame. Before the first pop this is the number before the first pushed frame, which is
what the queue itself initialises its last index to. -/
structure Numbered (δ : Type*) where
  queue : OrderedQueue (ℕ × δ)
  last : Option ℤ

namespace Numbered

def init (M : ℤ) (c : ℕ) (h : 0 < M) : Numbered δ := ⟨.empty M c h, none⟩

def index (s : Numbered δ) (n : ℕ) : ℕ := n % s.queue.maxIndex.toNat

def step (s : Numbered δ) : Op δ → Option (ℕ × δ) × Numbered δ
  | .push n oqd =>
    (none, ⟨s.queue.push (s.index n) (n, oqd), some (s.last.getD (n - 1))⟩)
  | .pop =>
    match s.queue.pop with
    | (some (_, f), q) => (some f, ⟨q, some f.1⟩)
    | (none, q) => (none, { s with queue := q })

def popped (s : Numbered δ) (ops : List (Op δ)) : List (ℕ × δ) :=
  (Mealy.outputs step s ops).reduceOption

/-- A pushed frame is less than half the index range away from the last popped one. -/
def Near (s : Numbered δ) : Op δ → Prop
  | .push n _ => ∀ L ∈ s.last, 2 * |(n : ℤ) - L| < s.queue.maxIndex
  | .pop => True

/-- A pushed frame that finds room comes after the last popped one. -/
def NotLate (s : Numbered δ) : Op δ → Prop
  | .push n _ => s.queue.size < s.queue.capacity → ∀ L ∈ s.last, L < n
  | .pop => True

instance (s : Numbered δ) : DecidablePred s.Near
  | .push n _ => inferInstanceAs (Decidable (∀ L ∈ s.last, 2 * |(n : ℤ) - L| < s.queue.maxIndex))
  | .pop => inferInstanceAs (Decidable True)

instance (s : Numbered δ) : DecidablePred s.NotLate
  | .push n _ => inferInstanceAs
      (Decidable (s.queue.size < s.queue.capacity → ∀ L ∈ s.last, L < n))
  | .pop => inferInstanceAs (Decidable True)

section Order

variable {s : Numbered δ} {M : ℤ}

theorem index_cast (n : ℕ) : (s.index n : ℤ) = (n : ℤ) % s.queue.maxIndex := by
  have := s.queue.maxIndex_pos
  rw [index, Int.natCast_mod, Int.toNat_of_nonneg (by omega)]

theorem key_index (n : ℕ) : s.queue.key (s.index n) = (n : ℤ) % s.queue.maxIndex := by
  rw [key_eq, index_cast, Int.emod_emod_of_dvd _ dvd_rfl]

theorem lastIndexPop_index (n : ℕ) (oqd : ℕ × δ) :
    (s.queue.push (s.index n) oqd).lastIndexPop =
      if s.queue.lastIndexPop = -1 then ((n : ℤ) - 1) % s.queue.maxIndex
      else s.queue.lastIndexPop := by
  rw [lastIndexPop_push, index_cast]
  simp [Int.sub_emod]

/-- The stock holds frames of one cycle after the last popped number, each under its index. -/
structure InWindow (s : Numbered δ) (L : ℤ) : Prop where
  lastIndexPop : s.queue.lastIndexPop = L % s.queue.maxIndex
  entry : ∀ k n d, s.queue.stock.lookup k = some (n, d) →
    k = (n : ℤ) % s.queue.maxIndex ∧ L < n ∧ (n : ℤ) ≤ L + s.queue.maxIndex

/-- The state before the first push, or a stock inside the window after the last number. -/
structure Inv (s : Numbered δ) : Prop where
  fresh : s.last = none → s.queue.lastIndexPop = -1 ∧ ∀ k, s.queue.stock.lookup k = none
  window : ∀ L ∈ s.last, s.InWindow L

theorem InWindow.lastIndexPop_ne {L : ℤ} (h : s.InWindow L) : s.queue.lastIndexPop ≠ -1 := by
  have := Int.emod_nonneg L s.queue.maxIndex_pos.ne'
  rw [h.lastIndexPop]; omega

theorem InWindow.nextIndex {L : ℤ} (h : s.InWindow L) :
    s.queue.nextIndex = (L + 1) % s.queue.maxIndex := by
  rw [nextIndex_eq, h.lastIndexPop, Int.emod_add_emod]

theorem InWindow.dist {L k : ℤ} {n : ℕ} {d : δ} (h : s.InWindow L)
    (hk : s.queue.stock.lookup k = some (n, d)) :
    Cyclic.dist s.queue.maxIndex s.queue.nextIndex k = n - (L + 1) := by
  obtain ⟨rfl, hl, hu⟩ := h.entry k n d hk
  rw [h.nextIndex, Cyclic.dist_emod_left, Cyclic.dist_emod_right]
  exact Cyclic.dist_of_window (by omega) (by omega)

theorem inv_init (c : ℕ) (h : 0 < M) : (init M c h : Numbered δ).Inv where
  fresh _ := ⟨rfl, fun k => lookup_empty M c h k⟩
  window L hL := by simp [init] at hL

theorem inv_push {n : ℕ} {d : δ} (h : s.Inv) (hn : s.Near (.push n d))
    (hl : s.NotLate (.push n d)) : (s.step (.push n d)).2.Inv := by
  have hM := s.queue.maxIndex_pos
  refine ⟨fun hc => by simp [step] at hc, fun L hL => ?_⟩
  obtain rfl : s.last.getD (n - 1) = L := by simpa [step] using hL
  -- The reference number: the last popped one, or the one before the first pushed frame.
  have hL' : s.queue.size < s.queue.capacity → s.last.getD (n - 1) < n ∧
      (n : ℤ) ≤ s.last.getD (n - 1) + s.queue.maxIndex := by
    intro hs
    cases he : s.last with
    | none => simp; omega
    | some L =>
      have h₁ := hn L he
      have h₂ := hl hs L he
      have := le_abs_self ((n : ℤ) - L)
      exact ⟨h₂, by simp only [Option.getD_some]; omega⟩
  refine ⟨?_, fun k m e hk => ?_⟩
  · change (s.queue.push (s.index n) (n, d)).lastIndexPop = _ % (s.queue.push _ _).maxIndex
    rw [lastIndexPop_index, maxIndex_push]
    cases he : s.last with
    | none => rw [if_pos (h.fresh he).1]; rfl
    | some L =>
      rw [if_neg (h.window L he).lastIndexPop_ne]
      exact (h.window L he).lastIndexPop
  · change (s.queue.push (s.index n) (n, d)).stock.lookup k = _ at hk
    change k = _ % (s.queue.push _ _).maxIndex ∧ _ ∧ _ ≤ _ + (s.queue.push _ _).maxIndex
    rw [maxIndex_push]
    have hold : s.queue.stock.lookup k = some (m, e) →
        k = (m : ℤ) % s.queue.maxIndex ∧ s.last.getD (n - 1) < m ∧
          (m : ℤ) ≤ s.last.getD (n - 1) + s.queue.maxIndex := by
      intro hk
      cases he : s.last with
      | none => simp [(h.fresh he).2 k] at hk
      | some L => exact (h.window L he).entry k m e hk
    by_cases hs : s.queue.size < s.queue.capacity
    · rw [stock_push_of_lt hs] at hk
      by_cases hkk : k = s.queue.key (s.index n)
      · subst hkk
        rw [AList.lookup_insert] at hk
        obtain ⟨rfl, rfl⟩ := Prod.mk.inj (Option.some.inj hk)
        exact ⟨key_index n, hL' hs⟩
      · rw [AList.lookup_insert_ne hkk] at hk
        exact hold hk
    · rw [stock_push_of_full (Nat.not_lt.mp hs)] at hk
      exact hold hk

theorem inv_pop (h : s.Inv) {f : ℕ × δ} (hf : (s.step .pop).1 = some f) :
    (∀ L ∈ s.last, L < f.1) ∧ (s.step .pop).2.last = some (f.1 : ℤ) ∧ (s.step .pop).2.Inv := by
  rcases pop_cases s.queue with ⟨hp, -⟩ | ⟨q', k, ⟨n, d⟩, hp, hq⟩
  · simp [step, hp] at hf
  · simp only [step, hp, Option.some.injEq] at hf ⊢
    subst hf
    obtain ⟨L, he⟩ : ∃ L, s.last = some L := by
      cases he : s.last with
      | none => simpa [(h.fresh he).2 k] using hq.lookup
      | some L => exact ⟨L, rfl⟩
    have hw := h.window L he
    obtain ⟨hk, hl, hu⟩ := hw.entry k n d hq.lookup
    refine ⟨fun L' hL' => ?_, rfl, fun hc => by simp at hc, fun L' hL' => ?_⟩
    · obtain rfl : L = L' := by simpa [he] using hL'
      exact hl
    obtain rfl : (n : ℤ) = L' := by simpa using hL'
    refine ⟨by rw [hq.lastIndexPop, hq.maxIndex, hk], fun k' m e hk' => ?_⟩
    rw [hq.maxIndex]
    have hne : k' ≠ k := by
      rintro rfl
      simp [hq.stock, AList.lookup_erase] at hk'
    replace hk' := hq.lookup_of_lookup hk'
    obtain ⟨hkm, hlm, hum⟩ := hw.entry k' m e hk'
    have hle := hq.least k' (mem_of_lookup hk')
    rw [hw.dist hq.lookup, hw.dist hk'] at hle
    have hnm : (n : ℤ) ≠ m := fun hnm => hne (by rw [hkm, hk, hnm])
    exact ⟨hkm, by omega, by omega⟩

theorem inv_pop_none (hf : (s.step .pop).1 = none) : (s.step .pop).2 = s := by
  rcases pop_cases s.queue with ⟨hp, -⟩ | ⟨q', k, d, hp, -⟩
  · simp [step, hp]
  · simp [step, hp] at hf

theorem last_push (n : ℕ) (d : δ) {L : ℤ} (hL : L ∈ s.last) :
    (s.step (.push n d)).2.last = some L := by
  simp [step, Option.mem_def.mp hL]

/-- Along a run without late frames the popped numbers increase, from the last one on. -/
theorem popped_increasing_of_inv {ops : List (Op δ)} (h : s.Inv)
    (hn : Mealy.Along step Near s ops) (hl : Mealy.Along step NotLate s ops) :
    (∀ f ∈ s.popped ops, ∀ L ∈ s.last, L < f.1) ∧
      ((s.popped ops).map Prod.fst).Pairwise (· < ·) := by
  induction ops generalizing s with
  | nil => simp [popped]
  | cons op ops ih =>
    cases op with
    | push n d =>
      obtain ⟨hb, hp⟩ := ih (inv_push h hn.1 hl.1) hn.2 hl.2
      exact ⟨fun f hf L hL => hb f hf L (last_push n d hL), hp⟩
    | pop =>
      cases hf : (s.step .pop).1 with
      | none =>
        have hs := inv_pop_none hf
        have he : s.popped (.pop :: ops) = s.popped ops := by simp [popped, hf, hs]
        rw [Mealy.along_cons, hs] at hn hl
        rw [he]
        exact ih h hn.2 hl.2
      | some f =>
        obtain ⟨hgt, hlast, hinv⟩ := inv_pop h hf
        obtain ⟨hb, hp⟩ := ih hinv hn.2 hl.2
        have he : s.popped (.pop :: ops) = f :: (s.step .pop).2.popped ops := by
          simp [popped, hf]
        have hb' : ∀ g ∈ (s.step .pop).2.popped ops, f.1 < g.1 := fun g hg => by
          exact_mod_cast hb g hg _ hlast
        rw [he]
        constructor
        · intro g hg L hL
          rcases List.mem_cons.mp hg with rfl | hg
          · exact hgt L hL
          · have h₁ := hgt L hL
            have h₂ := hb' g hg
            omega
        · simpa using ⟨fun a b hab => hb' (a, b) hab, hp⟩

end Order

end Numbered

/-- The same calls on the queue without tags: what a pop returns, and the queue after it. -/
def untaggedStep (q : OrderedQueue δ) : Op δ → Option (ℤ × δ) × OrderedQueue δ
  | .push n oqd => (none, q.push (n % q.maxIndex.toNat) oqd)
  | .pop => q.pop

theorem outputs_of_maps {s : Numbered δ} {q : OrderedQueue δ} (h : Maps Prod.snd s.queue q)
    (ops : List (Op δ)) :
    (Mealy.outputs untaggedStep q ops).map (Option.map Prod.snd) =
      (Mealy.outputs Numbered.step s ops).map (Option.map Prod.snd) := by
  induction ops generalizing s q with
  | nil => rfl
  | cons op ops ih =>
    cases op with
    | push n oqd =>
      have hp := h.push (s.index n) (n, oqd)
      rw [Numbered.index, ← h.maxIndex] at hp
      simpa [untaggedStep, Numbered.step, Numbered.index, ← h.maxIndex] using ih hp
    | pop =>
      obtain ⟨hf, hp⟩ := h.pop
      rcases hq : s.queue.pop with ⟨_ | ⟨k, f⟩, q'⟩ <;>
        simp only [hq, Option.map_none, Option.map_some] at hf hp <;>
        simp only [Mealy.outputs_cons, untaggedStep, Numbered.step, hq, hf, List.map_cons,
          Option.map_none, Option.map_some, Prod.map_snd, List.cons.injEq, true_and]
      · exact ih hp
      · exact ih hp

theorem outputs_untagged {M : ℤ} (c : ℕ) (hM : 0 < M) (ops : List (Op δ)) :
    (Mealy.outputs untaggedStep (.empty M c hM) ops).map (Option.map Prod.snd) =
      (Mealy.outputs Numbered.step (Numbered.init M c hM) ops).map (Option.map Prod.snd) :=
  outputs_of_maps (maps_empty Prod.snd M c hM) ops

open Numbered

end SourceCompanion.OrderedQueue
