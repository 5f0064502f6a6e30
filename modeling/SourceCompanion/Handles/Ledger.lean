import Mathlib.Data.List.Perm.Basic
import Mathlib.Data.List.Nodup
import Mathlib.Data.List.Range

/-! # Handles that are opened and closed

A handle is named by the number of handles opened before it, so that a name is never given out
twice. The ledger accounts for a list of handles if these are the ones that are open.
-/

namespace SourceCompanion

/-- The number of handles opened so far, and the calls that closed one, in their order. -/
structure Ledger where
  opened : ℕ := 0
  closed : List ℕ := []
deriving DecidableEq

namespace Ledger

def acquire (l : Ledger) : ℕ × Ledger := (l.opened, { l with opened := l.opened + 1 })

def close (l : Ledger) (handle : ℕ) : Ledger := { l with closed := l.closed ++ [handle] }

def live (l : Ledger) : List ℕ := (List.range l.opened).filter (· ∉ l.closed)

/-- Every handle that was opened was closed once. -/
def Settled (l : Ledger) : Prop := ∀ handle < l.opened, l.closed.count handle = 1

instance (l : Ledger) : Decidable l.Settled := Nat.decidableBallLT _ _

/-- The handles that were opened are those that were closed, each once, and the held ones. -/
def Accounts (l : Ledger) (held : List ℕ) : Prop := (l.closed ++ held).Perm (List.range l.opened)

variable {l : Ledger} {handle : ℕ} {held : List ℕ}

theorem accounts_nil : Accounts {} [] := List.Perm.refl _

theorem Accounts.acquire (h : l.Accounts held) : l.acquire.2.Accounts (l.acquire.1 :: held) := by
  unfold Accounts Ledger.acquire
  rw [List.range_succ]
  exact List.perm_middle.trans
    ((List.Perm.cons _ h).trans (List.perm_append_singleton _ _).symm)

theorem Accounts.close (h : l.Accounts (handle :: held)) : (l.close handle).Accounts held := by
  unfold Accounts Ledger.close at *
  rwa [List.append_assoc, List.singleton_append]

theorem Accounts.nodup (h : l.Accounts held) : (l.closed ++ held).Nodup :=
  h.nodup_iff.mpr List.nodup_range

theorem Accounts.closed_nodup (h : l.Accounts held) : l.closed.Nodup :=
  (List.nodup_append.mp h.nodup).1

theorem Accounts.mem_live_iff (h : l.Accounts held) : handle ∈ l.live ↔ handle ∈ held := by
  have hmem : handle ∈ l.closed ++ held ↔ handle ∈ List.range l.opened := h.mem_iff
  have hdisjoint := (List.nodup_append.mp h.nodup).2.2
  simp only [live, List.mem_filter, ← hmem, List.mem_append, decide_eq_true_eq]
  constructor
  · rintro ⟨hclosed | hheld, hopen⟩
    · exact absurd hclosed hopen
    · exact hheld
  · intro hheld
    exact ⟨Or.inr hheld, fun hclosed => hdisjoint _ hclosed _ hheld rfl⟩

theorem live_nodup : l.live.Nodup := List.nodup_range.filter _

theorem Accounts.length_live (h : l.Accounts held) : l.live.length = held.length := by
  apply List.Perm.length_eq
  rw [List.perm_ext_iff_of_nodup live_nodup (List.nodup_append.mp h.nodup).2.1]
  exact fun _ => h.mem_live_iff

/-- Every handle was closed once exactly if none is held any more. -/
theorem Accounts.settled_iff (h : l.Accounts held) : l.Settled ↔ held = [] := by
  constructor
  · intro hsettled
    rw [List.eq_nil_iff_forall_not_mem]
    intro handle hheld
    have hopened : handle ∈ List.range l.opened := h.mem_iff.mp (List.mem_append_right _ hheld)
    have hcount := hsettled handle (List.mem_range.mp hopened)
    have hclosed : handle ∈ l.closed := List.count_pos_iff.mp (hcount.symm ▸ Nat.one_pos)
    exact (List.nodup_append.mp h.nodup).2.2 _ hclosed _ hheld rfl
  · rintro rfl handle hopened
    apply List.count_eq_one_of_mem h.closed_nodup
    have hmem := h.mem_iff.mpr (List.mem_range.mpr hopened)
    rwa [List.append_nil] at hmem

end Ledger

end SourceCompanion
