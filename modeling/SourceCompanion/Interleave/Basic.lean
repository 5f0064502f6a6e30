import Mathlib.Algebra.Order.Floor.Div
import Mathlib.Algebra.Order.BigOperators.Group.Finset
import Mathlib.Data.List.Range
import Mathlib.Data.Nat.ModEq
import Mathlib.Order.Interval.Finset.Nat

/-! # Blocks and interleaving

A list cut into blocks of one length is the concatenation of its blocks, and the blocks
can be read back at their offsets. Interleaving deals the positions of a list out to a
number of columns in turn. A window of positions then takes nearly equal shares of the
columns.
-/

namespace SourceCompanion.Interleave

variable {α : Type*}

section Blocks

/-- The consecutive pieces of a list, of one length but for the last. -/
def pieces (count size : ℕ) (l : List α) : List (List α) :=
  (List.range count).map fun i => (l.drop (i * size)).take size

@[simp] theorem length_pieces (count size : ℕ) (l : List α) :
    (pieces count size l).length = count := by simp [pieces]

theorem flatten_pieces (count size : ℕ) (l : List α) :
    (pieces count size l).flatten = l.take (count * size) := by
  induction count with
  | zero => simp [pieces]
  | succ count ih =>
    rw [pieces, List.range_succ, List.map_append, List.flatten_append, ← pieces, ih,
      Nat.succ_mul, List.take_add]
    simp

theorem flatten_pieces_of_le {count size : ℕ} {l : List α} (h : l.length ≤ count * size) :
    (pieces count size l).flatten = l := by
  rw [flatten_pieces, List.take_of_length_le h]

theorem length_piece {count size i : ℕ} {l : List α} (hlen : l.length = count * size)
    (hi : i < count) : ((l.drop (i * size)).take size).length = size := by
  have : (i + 1) * size ≤ count * size := Nat.mul_le_mul_right _ hi
  rw [Nat.succ_mul] at this
  simp only [List.length_take, List.length_drop]
  omega

variable {f : ℕ → List α} {w count q : ℕ}

theorem length_flatMap_range (hf : ∀ i < count, (f i).length = w) :
    ((List.range count).flatMap f).length = count * w := by
  induction count with
  | zero => simp
  | succ count ih =>
    rw [List.range_succ, List.flatMap_append, List.length_append,
      ih fun i hi => hf i (by omega), Nat.succ_mul]
    simp [hf count (by omega)]

theorem drop_flatMap_range (hf : ∀ i < count, (f i).length = w) (hq : q < count) :
    ∃ rest, ((List.range count).flatMap f).drop (q * w) = f q ++ rest := by
  obtain ⟨d, rfl⟩ : ∃ d, count = q + (d + 1) := ⟨count - q - 1, by omega⟩
  rw [List.range_add, List.flatMap_append, List.range_succ_eq_map]
  refine ⟨((List.map (fun x => q + x) (List.map Nat.succ (List.range d))).flatMap f), ?_⟩
  rw [List.drop_left' (length_flatMap_range fun i hi => hf i (by omega))]
  simp

theorem take_drop_flatMap_range (hf : ∀ i < count, (f i).length = w) (hq : q < count)
    {len : ℕ} (hlen : len ≤ w) (more : List α) :
    (((List.range count).flatMap f ++ more).drop (q * w)).take len = (f q).take len := by
  obtain ⟨rest, hrest⟩ := drop_flatMap_range hf hq
  have hle : q * w ≤ ((List.range count).flatMap f).length := by
    rw [length_flatMap_range hf]
    exact Nat.mul_le_mul_right w hq.le
  rw [List.drop_append_of_le_length hle, hrest, List.append_assoc,
    List.take_append_of_le_length (by rw [hf q hq]; exact hlen)]

theorem map_getD_range {l : List α} {n : ℕ} (h : l.length ≤ n) (d : α) :
    (List.range n).map (fun p => l.getD p d) = l ++ List.replicate (n - l.length) d := by
  refine List.ext_getElem (by simp; omega) fun p hp _ => ?_
  rw [List.getElem_map, List.getElem_range, List.getD_eq_getElem?_getD, List.getElem_append]
  split
  · rw [List.getElem?_eq_getElem ‹_›, Option.getD_some]
  · rw [List.getElem?_eq_none (Nat.not_lt.mp ‹_›), List.getElem_replicate, Option.getD_none]

end Blocks

section Parts

variable {l k : ℕ}

/-- The number of equal parts of at most `k` that hold `l`, the size of each, and what the
last one leaves free. -/
def partCount (l k : ℕ) : ℕ := l ⌈/⌉ k

def partSize (l k : ℕ) : ℕ := l ⌈/⌉ partCount l k

def partPad (l k : ℕ) : ℕ := partCount l k * partSize l k - l

theorem ceilDiv_pos {a b : ℕ} (ha : 0 < a) (hb : 0 < b) : 0 < a ⌈/⌉ b := by
  by_contra h
  have hle : a ≤ b * 0 := (ceilDiv_le_iff_le_smul hb).mp (Nat.not_lt.mp h)
  omega

theorem smul_ceilDiv_lt {a b : ℕ} (hb : 0 < b) : b * (a ⌈/⌉ b) < a + b := by
  rw [Nat.ceilDiv_eq_add_pred_div]
  have := Nat.mul_div_le (a + b - 1) b
  omega

theorem partCount_pos (hl : 0 < l) (hk : 0 < k) : 0 < partCount l k := ceilDiv_pos hl hk

theorem partSize_pos (hl : 0 < l) (hk : 0 < k) : 0 < partSize l k :=
  ceilDiv_pos hl (partCount_pos hl hk)

theorem partSize_le (hl : 0 < l) (hk : 0 < k) : partSize l k ≤ k := by
  rw [partSize, ceilDiv_le_iff_le_smul (partCount_pos hl hk), smul_eq_mul, Nat.mul_comm]
  exact le_smul_ceilDiv hk

theorem le_parts (hl : 0 < l) (hk : 0 < k) : l ≤ partCount l k * partSize l k :=
  le_smul_ceilDiv (partCount_pos hl hk)

theorem partPad_lt (hl : 0 < l) (hk : 0 < k) : partPad l k < k := by
  have hlt : k * partCount l k < l + k := smul_ceilDiv_lt hk
  have hle : partCount l k * partSize l k ≤ partCount l k * k :=
    Nat.mul_le_mul_left _ (partSize_le hl hk)
  rw [Nat.mul_comm _ k] at hle
  unfold partPad
  omega

/-- Parts that are as few as with a smaller bound keep that bound. -/
theorem partSize_le_iff {bound : ℕ} (hl : 0 < l) (hk : 0 < k) (hbound : 0 < bound) :
    partSize l k ≤ bound ↔ partCount l k = partCount l (min k bound) := by
  rw [partSize, ceilDiv_le_iff_le_smul (partCount_pos hl hk), smul_eq_mul]
  simp only [partCount]
  rcases Nat.le_total k bound with hle | hle
  · rw [Nat.min_eq_left hle]
    have hcover : l ≤ k * (l ⌈/⌉ k) := le_smul_ceilDiv hk
    exact iff_of_true (hcover.trans ((Nat.mul_le_mul_right _ hle).trans_eq (Nat.mul_comm _ _))) rfl
  · rw [Nat.min_eq_right hle]
    have hcover : l ≤ bound * (l ⌈/⌉ bound) := le_smul_ceilDiv hbound
    have hfewer : l ⌈/⌉ k ≤ l ⌈/⌉ bound :=
      (ceilDiv_le_iff_le_smul hk).mpr (hcover.trans (Nat.mul_le_mul_right _ hle))
    rw [le_antisymm_iff, and_iff_right hfewer, ceilDiv_le_iff_le_smul hbound, smul_eq_mul,
      Nat.mul_comm]

theorem mul_partSize_lt {i : ℕ} (hl : 0 < l) (hk : 0 < k) (hi : i < partCount l k) :
    i * partSize l k < l := by
  have hshort : k * partCount l k < l + k := smul_ceilDiv_lt hk
  have hstart : i * partSize l k ≤ (partCount l k - 1) * k :=
    Nat.mul_le_mul (by omega) (partSize_le hl hk)
  rw [Nat.sub_mul, Nat.one_mul, Nat.mul_comm _ k] at hstart
  omega

end Parts

section Columns

/-- Deal the values of a function out to `n` columns of length `m` in turn. -/
def columns (n m : ℕ) (f : ℕ → α) : List (List α) :=
  (List.range n).map fun i => (List.range m).map fun j => f (j * n + i)

@[simp] theorem length_columns (n m : ℕ) (f : ℕ → α) : (columns n m f).length = n := by
  simp [columns]

theorem length_of_mem_columns {n m : ℕ} {f : ℕ → α} {c : List α} (h : c ∈ columns n m f) :
    c.length = m := by
  obtain ⟨i, -, rfl⟩ := List.mem_map.mp h
  simp

/-- What the columns hold for a position. -/
def at? (n : ℕ) (cols : ℕ → Option (List α)) (p : ℕ) : Option α :=
  (cols (p % n)).bind fun column => column[p / n]?

theorem at?_columns {n m p : ℕ} {f : ℕ → α} {cols : ℕ → Option (List α)} (hp : p < n * m)
    (hc : cols (p % n) = (columns n m f)[p % n]?) : at? n cols p = some (f p) := by
  have hn : 0 < n := Nat.pos_of_ne_zero (by rintro rfl; simp at hp)
  have hi : p % n < n := Nat.mod_lt _ hn
  have hj : p / n < m := Nat.div_lt_of_lt_mul hp
  have he : p / n * n + p % n = p := by rw [Nat.mul_comm]; exact Nat.div_add_mod p n
  simp [at?, hc, columns, hi, hj, he]

/-- The positions in order, read back from the columns. -/
def deinterleave (n m : ℕ) (cols : ℕ → Option (List α)) : List α :=
  (List.range (n * m)).filterMap (at? n cols)

theorem deinterleave_columns {n m : ℕ} {f : ℕ → α} {cols : ℕ → Option (List α)}
    (hc : ∀ i < n, cols i = (columns n m f)[i]?) :
    deinterleave n m cols = (List.range (n * m)).map f := by
  rw [deinterleave, ← List.filterMap_eq_map]
  refine List.filterMap_congr fun p hp => ?_
  have hp' : p < n * m := List.mem_range.mp hp
  have hn : 0 < n := Nat.pos_of_ne_zero (by rintro rfl; simp at hp')
  exact at?_columns hp' (hc _ (Nat.mod_lt _ hn))

end Columns

section Windows

/-- A window takes at most its share, rounded up, of the positions of one column. -/
theorem card_column_le {n : ℕ} (hn : 0 < n) (a w i : ℕ) :
    ((Finset.Ico a (a + w)).filter fun p => p % n = i).card ≤ w ⌈/⌉ n := by
  rw [← Finset.card_range (w ⌈/⌉ n)]
  refine Finset.card_le_card_of_injOn (fun p => (p - a) / n) ?_ ?_
  · intro p hp
    obtain ⟨hp, -⟩ := Finset.mem_filter.mp hp
    obtain ⟨hl, hu⟩ := Finset.mem_Ico.mp hp
    have hw : w ≤ n * (w ⌈/⌉ n) := le_smul_ceilDiv hn
    exact Finset.mem_coe.mpr (Finset.mem_range.mpr (Nat.div_lt_of_lt_mul (by omega)))
  · intro p hp p' hp' he
    obtain ⟨hp, hi⟩ := Finset.mem_filter.mp hp
    obtain ⟨hp', hi'⟩ := Finset.mem_filter.mp hp'
    have hl := (Finset.mem_Ico.mp hp).1
    have hl' := (Finset.mem_Ico.mp hp').1
    -- Equal residues and equal quotients after the shift by the start of the window.
    have hmod : (p - a) % n = (p' - a) % n := by
      refine Nat.ModEq.add_right_cancel' a ?_
      rw [Nat.sub_add_cancel hl, Nat.sub_add_cancel hl']
      exact hi.trans hi'.symm
    have h₁ := Nat.div_add_mod (p - a) n
    have h₂ := Nat.div_add_mod (p' - a) n
    simp only at he
    rw [he, hmod] at h₁
    omega

theorem card_columns_le {n : ℕ} (hn : 0 < n) (a w : ℕ) (S : Finset ℕ) :
    ((Finset.Ico a (a + w)).filter fun p => p % n ∈ S).card ≤ S.card * (w ⌈/⌉ n) := by
  have he : ((Finset.Ico a (a + w)).filter fun p => p % n ∈ S) =
      S.biUnion fun i => (Finset.Ico a (a + w)).filter fun p => p % n = i := by
    ext p
    simp only [Finset.mem_filter, Finset.mem_biUnion]
    constructor
    · rintro ⟨hp, hS⟩
      exact ⟨_, hS, hp, rfl⟩
    · rintro ⟨i, hi, hp, rfl⟩
      exact ⟨hp, hi⟩
  rw [he]
  exact Finset.card_biUnion_le_card_mul _ _ _ fun i _ => card_column_le hn a w i

theorem countP_columns_le {n : ℕ} (hn : 0 < n) (a w : ℕ) (S : Finset ℕ) :
    (List.range' a w).countP (fun p => p % n ∈ S) ≤ S.card * (w ⌈/⌉ n) := by
  have hlist : List.range' a w = List.range' a (a + w - a) := by rw [Nat.add_sub_cancel_left]
  rw [List.countP_eq_length_filter, hlist]
  exact card_columns_le hn a w S

end Windows

end SourceCompanion.Interleave
