import SourceCompanion.Run.Mealy
import Mathlib.Logic.Function.Basic

/-! # Threads in critical sections

Any number of threads run operations on a shared state. A mutex lets one thread in at a time.
Inside, a thread takes steps until it leaves with an answer, or until it waits on a condition,
which gives the mutex back. A thread that waits may try again at any time. If every section that
runs alone amounts to one atomic attempt, then every interleaving is a serial run of attempts.
-/

namespace SourceCompanion.Monitor

variable {σ ι ω κ ρ : Type*}

inductive Inside (σ κ ρ : Type*) where
  | next (s : σ) (place : κ)
  | wait
  | leave (s : σ) (answer : ρ)

/-- The code of the critical sections: the place where an operation enters, and the steps. -/
structure Code (σ ω κ ρ : Type*) where
  enter : ω → κ
  step : σ → κ → Inside σ κ ρ

/-- A section that runs alone ends, with an answer or waiting. -/
inductive Code.Ends (c : Code σ ω κ ρ) : σ → κ → Option ρ × σ → Prop
  | wait {s : σ} {place : κ} (h : c.step s place = .wait) : Ends c s place (none, s)
  | leave {s s' : σ} {place : κ} {answer : ρ} (h : c.step s place = .leave s' answer) :
      Ends c s place (some answer, s')
  | next {s s' : σ} {place place' : κ} {result : Option ρ × σ}
      (h : c.step s place = .next s' place') (hrest : Ends c s' place' result) :
      Ends c s place result

namespace Code.Ends

variable {c : Code σ ω κ ρ} {s s' : σ} {place place' : κ} {answer : ρ} {result : Option ρ × σ}

theorem of_wait (hstep : c.step s place = .wait) (h : c.Ends s place result) :
    result = (none, s) := by
  cases h with
  | wait => rfl
  | leave h => cases hstep.symm.trans h
  | next h => cases hstep.symm.trans h

theorem of_leave (hstep : c.step s place = .leave s' answer) (h : c.Ends s place result) :
    result = (some answer, s') := by
  cases h with
  | wait h => cases hstep.symm.trans h
  | leave h => cases hstep.symm.trans h; rfl
  | next h => cases hstep.symm.trans h

theorem of_next (hstep : c.step s place = .next s' place') (h : c.Ends s place result) :
    c.Ends s' place' result := by
  cases h with
  | wait h => cases hstep.symm.trans h
  | leave h => cases hstep.symm.trans h
  | next h hrest => cases hstep.symm.trans h; exact hrest

end Code.Ends

/-- The shared state, the thread inside with its place, and the operations called so far that
did not return. -/
structure State (σ ι ω κ : Type*) where
  shared : σ
  holder : Option (ι × κ) := none
  called : ι → Option ω := fun _ => none

inductive Event (ι ω : Type*) where
  | call (i : ι) (op : ω)
  | step (i : ι)

inductive Note (ι ω ρ : Type*) where
  | silent
  | called (i : ι) (op : ω)
  | waited (i : ι) (op : ω)
  | returned (i : ι) (op : ω) (answer : ρ)

def Note.attempts : Note ι ω ρ → List (ω × Option ρ)
  | .waited _ op => [(op, none)]
  | .returned _ op answer => [(op, some answer)]
  | _ => []

/-! ## What a state stands for -/

section

variable (c : Code σ ω κ ρ) (attempt : σ → ω → Option ρ × σ)

/-- The state belongs to a shared state of a serial run of attempts: it is that state, or the
section that runs will end as its attempt from that state. -/
def Explains (m : State σ ι ω κ) (s : σ) : Prop :=
  match m.holder with
  | none => m.shared = s
  | some (i, place) => ∃ op, m.called i = some op ∧ c.Ends m.shared place (attempt s op)

variable {c attempt} {m : State σ ι ω κ} {s : σ}

theorem Explains.of_free (h : Explains c attempt m s) (hfree : m.holder = none) :
    m.shared = s := by
  rwa [Explains, hfree] at h

theorem Explains.of_holder (h : Explains c attempt m s) {i : ι} {op : ω} {place : κ}
    (hholder : m.holder = some (i, place)) (hi : m.called i = some op) :
    c.Ends m.shared place (attempt s op) := by
  rw [Explains, hholder] at h
  obtain ⟨op', hi', hends⟩ := h
  obtain rfl : op = op' := Option.some.inj (hi.symm.trans hi')
  exact hends

end

/-! ## Steps -/

section

variable [DecidableEq ι] (c : Code σ ω κ ρ)

/-- A thread calls only when it is outside, enters only when nobody is inside, and moves on only
when it is inside itself. -/
def step (m : State σ ι ω κ) : Event ι ω → Note ι ω ρ × State σ ι ω κ
  | .call i op =>
    match m.called i with
    | none => (.called i op, { m with called := Function.update m.called i (some op) })
    | some _ => (.silent, m)
  | .step i =>
    match m.called i, m.holder with
    | none, _ => (.silent, m)
    | some op, none => (.silent, { m with holder := some (i, c.enter op) })
    | some op, some (j, place) =>
      if j = i then
        match c.step m.shared place with
        | .next shared place => (.silent, { m with shared, holder := some (i, place) })
        | .wait => (.waited i op, { m with holder := none })
        | .leave shared answer =>
          (.returned i op answer,
            { shared, holder := none, called := Function.update m.called i none })
      else (.silent, m)

/-- What an event can do: nothing, a call, or one of the four steps of a thread. -/
inductive Moves (m : State σ ι ω κ) : Note ι ω ρ → State σ ι ω κ → Prop
  | stay : Moves m .silent m
  | call {i : ι} {op : ω} (hi : m.called i = none) :
      Moves m (.called i op) { m with called := Function.update m.called i (some op) }
  | enter {i : ι} {op : ω} (hi : m.called i = some op) (hfree : m.holder = none) :
      Moves m .silent { m with holder := some (i, c.enter op) }
  | next {i : ι} {op : ω} {s : σ} {place place' : κ} (hi : m.called i = some op)
      (hholder : m.holder = some (i, place)) (hstep : c.step m.shared place = .next s place') :
      Moves m .silent { m with shared := s, holder := some (i, place') }
  | wait {i : ι} {op : ω} {place : κ} (hi : m.called i = some op)
      (hholder : m.holder = some (i, place)) (hstep : c.step m.shared place = .wait) :
      Moves m (.waited i op) { m with holder := none }
  | leave {i : ι} {op : ω} {s : σ} {place : κ} {answer : ρ} (hi : m.called i = some op)
      (hholder : m.holder = some (i, place)) (hstep : c.step m.shared place = .leave s answer) :
      Moves m (.returned i op answer) ⟨s, none, Function.update m.called i none⟩

theorem moves_step (m : State σ ι ω κ) (e : Event ι ω) :
    Moves c m (step c m e).1 (step c m e).2 := by
  cases e with
  | call i op =>
    cases hi : m.called i with
    | none =>
      simp only [step, hi]
      exact .call hi
    | some _ =>
      simp only [step, hi]
      exact .stay
  | step i =>
    cases hi : m.called i with
    | none =>
      simp only [step, hi]
      exact .stay
    | some op =>
      cases hholder : m.holder with
      | none =>
        simp only [step, hi, hholder]
        exact .enter hi hholder
      | some p =>
        obtain ⟨j, place⟩ := p
        by_cases hj : j = i
        · subst hj
          simp only [step, hi, hholder, if_true]
          cases hstep : c.step m.shared place with
          | next shared place' => exact .next hi hholder hstep
          | wait => exact .wait hi hholder hstep
          | leave shared answer => exact .leave hi hholder hstep
        · simp only [step, hi, hholder, if_neg hj]
          exact .stay

/-! ## Every interleaving is serial -/

variable {c} {attempt : σ → ω → Option ρ × σ} {m : State σ ι ω κ} {s : σ}

theorem Explains.call (h : Explains c attempt m s) {i : ι} (hi : m.called i = none) (op : ω) :
    Explains c attempt { m with called := Function.update m.called i (some op) } s := by
  unfold Explains at h ⊢
  cases hholder : m.holder with
  | none => simpa only [hholder] using h
  | some p =>
    obtain ⟨j, place⟩ := p
    simp only [hholder] at h ⊢
    obtain ⟨op', hj, hends⟩ := h
    have hji : j ≠ i := by
      rintro rfl
      cases hi.symm.trans hj
    exact ⟨op', by rwa [Function.update_of_ne hji], hends⟩

/-- What one event ends is one attempt of the serial run. -/
theorem Explains.moves (hc : ∀ s op, c.Ends s (c.enter op) (attempt s op))
    (h : Explains c attempt m s) {note : Note ι ω ρ} {m' : State σ ι ω κ}
    (hm : Moves c m note m') :
    note.attempts.map Prod.snd = Mealy.outputs attempt s (note.attempts.map Prod.fst) ∧
      Explains c attempt m' (Mealy.state attempt s (note.attempts.map Prod.fst)) := by
  cases hm with
  | stay => exact ⟨rfl, h⟩
  | call hi => exact ⟨rfl, h.call hi _⟩
  | enter hi hfree =>
    obtain rfl := h.of_free hfree
    exact ⟨rfl, _, hi, hc _ _⟩
  | next hi hholder hstep => exact ⟨rfl, _, hi, (h.of_holder hholder hi).of_next hstep⟩
  | wait hi hholder hstep =>
    have hattempt := (h.of_holder hholder hi).of_wait hstep
    simp [Note.attempts, hattempt, Explains]
  | leave hi hholder hstep =>
    have hattempt := (h.of_holder hholder hi).of_leave hstep
    simp [Note.attempts, hattempt, Explains]

theorem Explains.run (hc : ∀ s op, c.Ends s (c.enter op) (attempt s op))
    (h : Explains c attempt m s) (w : List (Event ι ω)) :
    let log := (Mealy.outputs (step c) m w).flatMap Note.attempts
    log.map Prod.snd = Mealy.outputs attempt s (log.map Prod.fst) ∧
      Explains c attempt (Mealy.state (step c) m w)
        (Mealy.state attempt s (log.map Prod.fst)) := by
  induction w generalizing m s with
  | nil => exact ⟨rfl, h⟩
  | cons e w ih =>
    obtain ⟨hanswer, hnext⟩ := h.moves hc (moves_step c m e)
    obtain ⟨hanswers, hend⟩ := ih hnext
    simp only [Mealy.outputs_cons, Mealy.state_cons, List.flatMap_cons, List.map_append,
      Mealy.outputs_append, Mealy.state_append]
    exact ⟨by rw [hanswer, hanswers], hend⟩

/-! ## Every call returns at most once -/

def Note.callsOf (i : ι) : Note ι ω ρ → List ω
  | .called j op => if j = i then [op] else []
  | _ => []

def Note.returnsOf (i : ι) : Note ι ω ρ → List ω
  | .returned j op _ => if j = i then [op] else []
  | _ => []

theorem called_moves (i : ι) {m m' : State σ ι ω κ} {note : Note ι ω ρ} (h : Moves c m note m') :
    (m.called i).toList ++ note.callsOf i = note.returnsOf i ++ (m'.called i).toList := by
  cases h with
  | stay | enter | next | wait => simp [Note.callsOf, Note.returnsOf]
  | call hj =>
    rename_i j op
    by_cases hji : i = j
    · subst hji
      simp [Note.callsOf, Note.returnsOf, hj]
    · simp [Note.callsOf, Note.returnsOf, hji, Ne.symm hji]
  | leave hj =>
    rename_i j _ _ _ _ _ _
    by_cases hji : i = j
    · subst hji
      simp [Note.callsOf, Note.returnsOf, hj]
    · simp [Note.callsOf, Note.returnsOf, hji, Ne.symm hji]

theorem calls_eq (i : ι) (m : State σ ι ω κ) (w : List (Event ι ω)) :
    (m.called i).toList ++ (Mealy.outputs (step c) m w).flatMap (Note.callsOf i) =
      (Mealy.outputs (step c) m w).flatMap (Note.returnsOf i) ++
        ((Mealy.state (step c) m w).called i).toList :=
  Mealy.conserved (fun m e => called_moves i (moves_step c m e)) m w

end

end SourceCompanion.Monitor
