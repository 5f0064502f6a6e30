import Mathlib.Data.List.Basic
import Mathlib.Data.List.Induction

/-! # Runs of answering machines

A machine answers each input and moves to a next state. `state` and `outputs`
collect what a word of inputs leads to, and `Along` says that every step of the
run meets a condition on the state before it and on its input. Invariants and
simulations are transferred from one step to whole runs.
-/

namespace SourceCompanion.Mealy

variable {σ σ' α β β' : Type*} (step : σ → α → β × σ)

/-- The state reached after a word of inputs. -/
def state (s : σ) : List α → σ
  | [] => s
  | a :: w => state (step s a).2 w

/-- The answers given along a word of inputs. -/
def outputs (s : σ) : List α → List β
  | [] => []
  | a :: w => (step s a).1 :: outputs (step s a).2 w

/-- Every step of the run meets a condition on its state and its input. -/
def Along (G : σ → α → Prop) (s : σ) : List α → Prop
  | [] => True
  | a :: w => G s a ∧ Along G (step s a).2 w

def decidableAlong {G : σ → α → Prop} (h : ∀ s a, Decidable (G s a)) (s : σ) :
    ∀ w, Decidable (Along step G s w)
  | [] => inferInstanceAs (Decidable True)
  | a :: w =>
    have := h s a
    have := decidableAlong h (step s a).2 w
    inferInstanceAs (Decidable (G s a ∧ Along step G (step s a).2 w))

instance {G : σ → α → Prop} [h : ∀ s a, Decidable (G s a)] (s : σ) (w : List α) :
    Decidable (Along step G s w) := decidableAlong step h s w

variable {step} {G H : σ → α → Prop} {I : σ → Prop}

@[simp] theorem state_nil (s : σ) : state step s [] = s := rfl

@[simp] theorem state_cons (s : σ) (a : α) (w : List α) :
    state step s (a :: w) = state step (step s a).2 w := rfl

@[simp] theorem outputs_nil (s : σ) : outputs step s [] = [] := rfl

@[simp] theorem outputs_cons (s : σ) (a : α) (w : List α) :
    outputs step s (a :: w) = (step s a).1 :: outputs step (step s a).2 w := rfl

@[simp] theorem along_nil (s : σ) : Along step G s [] := trivial

@[simp] theorem along_cons (s : σ) (a : α) (w : List α) :
    Along step G s (a :: w) ↔ G s a ∧ Along step G (step s a).2 w := Iff.rfl

@[simp] theorem state_append (s : σ) (v w : List α) :
    state step s (v ++ w) = state step (state step s v) w := by
  induction v generalizing s with
  | nil => rfl
  | cons a v ih => exact ih _

@[simp] theorem outputs_append (s : σ) (v w : List α) :
    outputs step s (v ++ w) = outputs step s v ++ outputs step (state step s v) w := by
  induction v generalizing s with
  | nil => rfl
  | cons a v ih => simp [ih]

@[simp] theorem along_append (s : σ) (v w : List α) :
    Along step G s (v ++ w) ↔ Along step G s v ∧ Along step G (state step s v) w := by
  induction v generalizing s with
  | nil => simp
  | cons a v ih => simp [ih, and_assoc]

theorem outputs_getElem? (s : σ) (w : List α) (i : ℕ) :
    (outputs step s w)[i]? = w[i]?.map fun a => (step (state step s (w.take i)) a).1 := by
  induction w generalizing s i with
  | nil => simp
  | cons a w ih =>
    cases i with
    | zero => rfl
    | succ i => simpa using ih _ i

theorem outputs_take (s : σ) (w : List α) (i : ℕ) :
    (outputs step s w).take i = outputs step s (w.take i) := by
  induction w generalizing s i with
  | nil => simp
  | cons a w ih =>
    cases i with
    | zero => rfl
    | succ i => simp [ih]

theorem state_take_succ {s : σ} {w : List α} {i : ℕ} {a : α} (h : w[i]? = some a) :
    state step s (w.take (i + 1)) = (step (state step s (w.take i)) a).2 := by
  rw [List.take_add_one, h, state_append]
  rfl

theorem outputs_drop (s : σ) (w : List α) (i j : ℕ) :
    (outputs step (state step s (w.take i)) (w.drop i))[j]? = (outputs step s w)[i + j]? := by
  rw [outputs_getElem?, outputs_getElem?, List.getElem?_drop, List.take_add, state_append]

theorem Along.drop {s : σ} {w : List α} (hw : Along step G s w) (i : ℕ) :
    Along step G (state step s (w.take i)) (w.drop i) := by
  rw [← List.take_append_drop i w, along_append] at hw
  exact hw.2

theorem Along.and {s : σ} {w : List α} (hG : Along step G s w) (hH : Along step H s w) :
    Along step (fun s a => G s a ∧ H s a) s w := by
  induction w generalizing s with
  | nil => trivial
  | cons a w ih => exact ⟨⟨hG.1, hH.1⟩, ih hG.2 hH.2⟩

theorem Along.invariant {s : σ} {w : List α} (hw : Along step G s w) (hs : I s)
    (hI : ∀ s a, I s → G s a → I (step s a).2) : I (state step s w) := by
  induction w generalizing s with
  | nil => exact hs
  | cons a w ih => exact ih hw.2 (hI _ _ hs hw.1)

theorem Along.of_invariant {s : σ} {w : List α} (hw : Along step G s w) (hs : I s)
    (hI : ∀ s a, I s → G s a → I (step s a).2) (hH : ∀ s a, I s → G s a → H s a) :
    Along step H s w := by
  induction w generalizing s with
  | nil => trivial
  | cons a w ih => exact ⟨hH _ _ hs hw.1, ih hw.2 (hI _ _ hs hw.1)⟩

theorem Along.forall_outputs {P : β → Prop} {s : σ} {w : List α} (hw : Along step G s w)
    (hs : I s) (hI : ∀ s a, I s → G s a → I (step s a).2)
    (hP : ∀ s a, I s → G s a → P (step s a).1) : ∀ b ∈ outputs step s w, P b := by
  induction w generalizing s with
  | nil => simp
  | cons a w ih =>
    intro b hb
    rcases List.mem_cons.mp hb with rfl | hb
    · exact hP _ _ hs hw.1
    · exact ih hw.2 (hI _ _ hs hw.1) b hb

/-- An invariant that also speaks about the inputs so far holds at every place of a guarded
run. -/
theorem Along.invariant_history {I : List α → σ → Prop} {s : σ} {w : List α}
    (hw : Along step G s w) (hs : I [] s)
    (hI : ∀ v a, I v (state step s v) → G (state step s v) a →
      I (v ++ [a]) (step (state step s v) a).2) (i : ℕ) :
    I (w.take i) (state step s (w.take i)) := by
  induction i with
  | zero => simpa using hs
  | succ i ih =>
    rcases Nat.lt_or_ge i w.length with hi | hi
    · have hrest := hw.drop i
      rw [List.drop_eq_getElem_cons hi] at hrest
      rw [List.take_succ_eq_append_getElem hi, state_append]
      exact hI _ _ ih hrest.1
    · rwa [List.take_of_length_le (Nat.le_succ_of_le hi), ← List.take_of_length_le hi]

theorem along_of_forall {s : σ} {w : List α} (h : ∀ a ∈ w, ∀ s, G s a) : Along step G s w := by
  induction w generalizing s with
  | nil => trivial
  | cons a w ih =>
    constructor
    · exact h a List.mem_cons_self s
    · exact ih fun b hb => h b (List.mem_cons_of_mem a hb)

/-- If a step leads into the bad states exactly when it breaks the condition, then a run meets the
condition exactly when it never reaches a bad state. -/
theorem along_iff_forall_take {B : σ → Prop} (hI : ∀ s a, I s → I (step s a).2)
    (hB : ∀ s a, I s → ¬ B s → (B (step s a).2 ↔ ¬ G s a)) {s : σ} (hs : I s) (h : ¬ B s)
    (w : List α) : Along step G s w ↔ ∀ i, ¬ B (state step s (w.take i)) := by
  induction w generalizing s with
  | nil => simpa using h
  | cons a w ih =>
    rw [along_cons]
    constructor
    · rintro ⟨ha, hw⟩ i
      cases i with
      | zero => exact h
      | succ i => exact (ih (hI s a hs) (fun hb => (hB s a hs h).mp hb ha)).mp hw i
    · intro hall
      have hnext : ¬ B (step s a).2 := hall 1
      refine ⟨not_not.mp fun ha => hnext ((hB s a hs h).mpr ha), ?_⟩
      exact (ih (hI s a hs) hnext).mpr fun i => hall (i + 1)

theorem along_true (s : σ) (w : List α) : Along step (fun _ _ => True) s w := by
  induction w generalizing s with
  | nil => trivial
  | cons a w ih => exact ⟨trivial, ih _⟩

theorem invariant {s : σ} (w : List α) (hs : I s) (hI : ∀ s a, I s → I (step s a).2) :
    I (state step s w) :=
  (along_true s w).invariant hs fun s a h _ => hI s a h

theorem invariant_take {s : σ} {w : List α} {i j : ℕ} (hij : i ≤ j)
    (hi : I (state step s (w.take i))) (hI : ∀ s a, I s → I (step s a).2) :
    I (state step s (w.take j)) := by
  obtain ⟨k, rfl⟩ := Nat.exists_eq_add_of_le hij
  rw [List.take_add, state_append]
  exact invariant _ hi hI

theorem conserved {γ : Type*} {held : σ → List γ} {incoming outgoing : β → List γ}
    (h : ∀ s a, held s ++ incoming (step s a).1 = outgoing (step s a).1 ++ held (step s a).2)
    (s : σ) (w : List α) :
    held s ++ (outputs step s w).flatMap incoming =
      (outputs step s w).flatMap outgoing ++ held (state step s w) := by
  induction w generalizing s with
  | nil => simp
  | cons a w ih =>
    rw [outputs_cons, List.flatMap_cons, List.flatMap_cons, ← List.append_assoc, h,
      List.append_assoc, List.append_assoc, ih, state_cons]

theorem exists_matching {τ α' γ : Type*} {step' : τ → α' → β' × τ} {obs : β → List γ}
    {obs' : β' → List γ} {R : List α → List α' → Prop} {s : σ} {t : τ} (hnil : R [] [])
    (h : ∀ w v a, R w v → ∃ v', R (w ++ [a]) (v ++ v') ∧
      obs (step (state step s w) a).1 = (outputs step' (state step' t v) v').flatMap obs')
    (w : List α) :
    ∃ v, R w v ∧ (outputs step s w).flatMap obs = (outputs step' t v).flatMap obs' := by
  induction w using List.reverseRecOn with
  | nil => exact ⟨[], hnil, rfl⟩
  | append_singleton w a ih =>
    obtain ⟨v, hR, hshown⟩ := ih
    obtain ⟨v', hR', hstep⟩ := h w v a hR
    refine ⟨v ++ v', hR', ?_⟩
    rw [outputs_append, outputs_append, List.flatMap_append, List.flatMap_append, hshown, ← hstep,
      outputs_cons, outputs_nil, List.flatMap_singleton]

end SourceCompanion.Mealy
