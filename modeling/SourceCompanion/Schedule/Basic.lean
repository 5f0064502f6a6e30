import Mathlib.Data.List.Perm.Lattice
import Mathlib.Data.List.Pairwise
import Mathlib.Order.Lattice
import Mathlib.Tactic.SplitIfs

/-! # Schedules

A schedule keeps values under distinct keys of a linear order, sorted by key. An insertion under
a key that is already there replaces the value. `due` are the values up to a limit and `after`
is the schedule without them.
-/

namespace SourceCompanion

structure Schedule (κ β : Type*) [LinearOrder κ] where
  entries : List (κ × β)
  sorted : entries.Pairwise fun a b => a.1 < b.1

namespace Schedule

variable {κ β : Type*} [LinearOrder κ]

/-- Put a value under its key into a sorted list. -/
def insertEntry (k : κ) (v : β) : List (κ × β) → List (κ × β)
  | [] => [(k, v)]
  | e :: es =>
    if k < e.1 then (k, v) :: e :: es
    else if k = e.1 then (k, v) :: es
    else e :: insertEntry k v es

theorem mem_keys_insertEntry {k k' : κ} {v : β} {es : List (κ × β)} :
    k' ∈ (insertEntry k v es).map Prod.fst ↔ k' = k ∨ k' ∈ es.map Prod.fst := by
  induction es with
  | nil => simp [insertEntry]
  | cons e es ih =>
    rw [insertEntry]
    split_ifs with hlt heq
    · simp
    · simp [← heq]
    · rw [List.map_cons, List.mem_cons, ih, List.map_cons, List.mem_cons]
      tauto

theorem sorted_insertEntry {k : κ} {v : β} {es : List (κ × β)}
    (h : es.Pairwise fun a b => a.1 < b.1) :
    (insertEntry k v es).Pairwise fun a b => a.1 < b.1 := by
  induction es with
  | nil => simp [insertEntry]
  | cons e es ih =>
    obtain ⟨hhead, htail⟩ := List.pairwise_cons.mp h
    rw [insertEntry]
    split_ifs with hlt heq
    · refine List.pairwise_cons.mpr ⟨fun e' he' => ?_, h⟩
      rcases List.mem_cons.mp he' with rfl | he'
      · exact hlt
      · exact hlt.trans (hhead e' he')
    · exact List.pairwise_cons.mpr ⟨fun e' he' => heq ▸ hhead e' he', htail⟩
    · refine List.pairwise_cons.mpr ⟨fun e' he' => ?_, ih htail⟩
      rcases mem_keys_insertEntry.mp (List.mem_map_of_mem he') with hk | hk
      · rw [hk]
        exact lt_of_le_of_ne (not_lt.mp hlt) (Ne.symm heq)
      · obtain ⟨e'', he'', heq'⟩ := List.mem_map.mp hk
        exact heq' ▸ hhead e'' he''

theorem insertEntry_perm {k : κ} {v : β} {es : List (κ × β)} (h : k ∉ es.map Prod.fst) :
    (insertEntry k v es).Perm ((k, v) :: es) := by
  induction es with
  | nil => exact List.Perm.refl _
  | cons e es ih =>
    simp only [List.map_cons, List.mem_cons, not_or] at h
    rw [insertEntry, if_neg h.1]
    split_ifs with hlt
    · exact List.Perm.refl _
    · exact ((ih h.2).cons e).trans (List.Perm.swap _ _ _)

def empty : Schedule κ β := ⟨[], List.Pairwise.nil⟩

def insert (s : Schedule κ β) (k : κ) (v : β) : Schedule κ β :=
  ⟨insertEntry k v s.entries, sorted_insertEntry s.sorted⟩

def keys (s : Schedule κ β) : List κ := s.entries.map Prod.fst

/-- The values up to a limit, in the order of their keys. -/
def due (s : Schedule κ β) (limit : κ) : List β :=
  (s.entries.filter fun e => e.1 ≤ limit).map Prod.snd

def after (s : Schedule κ β) (limit : κ) : Schedule κ β :=
  ⟨s.entries.filter fun e => limit < e.1, s.sorted.filter _⟩

def insertAll (s : Schedule κ β) : List (κ × β) → Schedule κ β
  | [] => s
  | e :: es => (s.insert e.1 e.2).insertAll es

@[simp] theorem keys_insert {s : Schedule κ β} {k k' : κ} {v : β} :
    k' ∈ (s.insert k v).keys ↔ k' = k ∨ k' ∈ s.keys := mem_keys_insertEntry

/-- Entries under new and distinct keys are added, and nothing is replaced. -/
theorem insertAll_perm {s : Schedule κ β} {es : List (κ × β)} (hnew : ∀ e ∈ es, e.1 ∉ s.keys)
    (hnodup : (es.map Prod.fst).Nodup) :
    (s.insertAll es).entries.Perm (s.entries ++ es) := by
  induction es generalizing s with
  | nil =>
    rw [List.append_nil]
    exact List.Perm.refl _
  | cons e es ih =>
    obtain ⟨hhead, htail⟩ := List.nodup_cons.mp hnodup
    have hrest : ∀ e' ∈ es, e'.1 ∉ (s.insert e.1 e.2).keys := by
      intro e' he' hk
      rcases keys_insert.mp hk with heq | hk
      · exact hhead (heq ▸ List.mem_map_of_mem he')
      · exact hnew e' (List.mem_cons_of_mem _ he') hk
    have hinsert : (s.insert e.1 e.2).entries.Perm (e :: s.entries) :=
      insertEntry_perm (hnew e List.mem_cons_self)
    have hall := (ih hrest htail).trans (hinsert.append_right es)
    exact hall.trans List.perm_middle.symm

theorem due_perm {s : Schedule κ β} {es : List (κ × β)} (h : s.entries.Perm es) (limit : κ) :
    (s.due limit).Perm ((es.filter fun e => e.1 ≤ limit).map Prod.snd) :=
  (h.filter _).map _

theorem after_perm {s : Schedule κ β} {es : List (κ × β)} (h : s.entries.Perm es) (limit : κ) :
    (s.after limit).entries.Perm (es.filter fun e => limit < e.1) :=
  h.filter _

end Schedule

end SourceCompanion
