import Mathlib.Data.List.Basic

/-! # Programs on a state that record events

A program changes a state, records what it does, and returns a value or stops for a reason. What it
did before it stopped stays recorded. A relation between the state before, the events and the state
after is proved for a program from its parts.
-/

namespace SourceCompanion

variable {ε σ ι α β : Type}

/-- The outcome of a program, the state it leaves and the events it recorded. -/
def Recorded (ε σ ι α : Type) : Type := σ → Except ε α × σ × List ι

namespace Recorded

instance : Monad (Recorded ε σ ι) where
  pure a := fun s => (.ok a, s, [])
  bind m f := fun s =>
    match m s with
    | (.ok a, s', v) => ((f a s').1, (f a s').2.1, v ++ (f a s').2.2)
    | (.error e, s', v) => (.error e, s', v)

def stop (e : ε) : Recorded ε σ ι α := fun s => (.error e, s, [])

def emit (i : ι) : Recorded ε σ ι Unit := fun s => (.ok (), s, [i])

def get : Recorded ε σ ι σ := fun s => (.ok s, s, [])

def set (s : σ) : Recorded ε σ ι Unit := fun _ => (.ok (), s, [])

def forEach {κ : Type} (f : κ → Recorded ε σ ι Unit) : List κ → Recorded ε σ ι Unit
  | [] => pure ()
  | k :: ks => f k >>= fun _ => forEach f ks

theorem pure_apply (a : α) (s : σ) : (pure a : Recorded ε σ ι α) s = (.ok a, s, []) := rfl

theorem bind_apply (m : Recorded ε σ ι α) (f : α → Recorded ε σ ι β) (s : σ) :
    (m >>= f) s =
      match m s with
      | (.ok a, s', v) => ((f a s').1, (f a s').2.1, v ++ (f a s').2.2)
      | (.error e, s', v) => (.error e, s', v) := rfl

/-- A program that returns is followed by the next one. -/
theorem bind_of_ok {m : Recorded ε σ ι α} {f : α → Recorded ε σ ι β} {s s' : σ} {a : α}
    {v : List ι} (h : m s = (.ok a, s', v)) :
    (m >>= f) s = ((f a s').1, (f a s').2.1, v ++ (f a s').2.2) := by
  rw [bind_apply, h]

theorem bind_of_error {m : Recorded ε σ ι α} {f : α → Recorded ε σ ι β} {s s' : σ} {e : ε}
    {v : List ι} (h : m s = (.error e, s', v)) : (m >>= f) s = (.error e, s', v) := by
  rw [bind_apply, h]

theorem stop_apply (e : ε) (s : σ) : (stop e : Recorded ε σ ι α) s = (.error e, s, []) := rfl

theorem emit_apply (i : ι) (s : σ) : (emit i : Recorded ε σ ι Unit) s = (.ok (), s, [i]) := rfl

theorem get_apply (s : σ) : (get : Recorded ε σ ι σ) s = (.ok s, s, []) := rfl

theorem set_apply (s s' : σ) : (set s' : Recorded ε σ ι Unit) s = (.ok (), s', []) := rfl

/-- A relation that holds of doing nothing and of two parts of a run one after the other. -/
structure Composes (R : σ → List ι → σ → Prop) : Prop where
  refl : ∀ s, R s [] s
  trans : ∀ {s s' s'' v w}, R s v s' → R s' w s'' → R s (v ++ w) s''

/-- The program relates each state, the events that it records there, and the state it leaves. -/
def Keeps (R : σ → List ι → σ → Prop) (m : Recorded ε σ ι α) : Prop :=
  ∀ s, R s (m s).2.2 (m s).2.1

section Rules

variable {R : σ → List ι → σ → Prop} (hR : Composes R)

include hR

theorem keeps_pure (a : α) : Keeps R (pure a : Recorded ε σ ι α) := fun s => hR.refl s

theorem keeps_stop (e : ε) : Keeps R (stop e : Recorded ε σ ι α) := fun s => hR.refl s

theorem keeps_bind {m : Recorded ε σ ι α} {f : α → Recorded ε σ ι β} (hm : Keeps R m)
    (hf : ∀ a, Keeps R (f a)) : Keeps R (m >>= f) := by
  intro s
  have hs := hm s
  rcases hrun : m s with ⟨_ | a, s', v⟩
  · rw [hrun] at hs
    rw [bind_of_error hrun]
    exact hs
  · rw [hrun] at hs
    rw [bind_of_ok hrun]
    exact hR.trans hs (hf a s')

theorem keeps_forEach {κ : Type} {f : κ → Recorded ε σ ι Unit} (ks : List κ)
    (hf : ∀ k ∈ ks, Keeps R (f k)) : Keeps R (forEach f ks) := by
  induction ks with
  | nil => exact keeps_pure hR ()
  | cons k ks ih =>
    apply keeps_bind hR
    · exact hf k List.mem_cons_self
    · exact fun _ => ih fun k' hk' => hf k' (List.mem_cons_of_mem k hk')

end Rules

def Only (P : ι → Prop) (_ : σ) (v : List ι) (_ : σ) : Prop := ∀ i ∈ v, P i

theorem composes_only (P : ι → Prop) : Composes (σ := σ) (Only P) where
  refl _ := by simp [Only]
  trans hv hw := by
    intro i hi
    rcases List.mem_append.mp hi with hi | hi
    · exact hv i hi
    · exact hw i hi

end Recorded

end SourceCompanion
