import SourceCompanion.ClockTAI.Fetch

/-! # Calls and the refresh on two threads

The calls of `get_offset` and the refresh in the background share the mutex of the clock. A run is
any order of their steps. A step that needs the mutex while the other thread owns it changes
nothing.
-/

namespace SourceCompanion.ClockTAI

inductive Thread where
  | caller
  | refresh
deriving DecidableEq

structure Task where
  env : Env
  phase : Fetch := .locking

/-- Where the caller is: between two calls, before its first lock, at its check for a state, in its
own fetch, before its second lock, or before its poll. -/
inductive Caller where
  | idle
  | locking (timeNow : ℤ)
  | entered (timeNow : ℤ)
  | fetching (timeNow : ℤ) (env : Env) (phase : Fetch)
  | relocking (timeNow : ℤ)
  | polling (timeNow : ℤ)

def Caller.Holds : Caller → Prop
  | .entered _ | .polling _ => True
  | .fetching _ _ phase => phase.Holds
  | _ => False

def Caller.Locks : Caller → Prop
  | .locking _ | .relocking _ | .fetching _ _ .locking => True
  | _ => False

instance : DecidablePred Caller.Locks
  | .locking _ | .relocking _ | .fetching _ _ .locking => inferInstanceAs (Decidable True)
  | .idle | .entered _ | .polling _ | .fetching _ _ .checking | .fetching _ _ .loading
  | .fetching _ _ (.downloading ..) | .fetching _ _ (.storing _) | .fetching _ _ (.choosing _)
  | .fetching _ _ (.returned _) => inferInstanceAs (Decidable False)

def Caller.Idle : Caller → Prop
  | .idle => True
  | _ => False

instance : DecidablePred Caller.Idle
  | .idle => inferInstanceAs (Decidable True)
  | .locking _ | .entered _ | .fetching .. | .relocking _ | .polling _ =>
    inferInstanceAs (Decidable False)

/-- The caller is past the check for a state, or has fetched one. -/
def Caller.Polls : Caller → Prop
  | .relocking _ | .polling _ => True
  | _ => False

def Caller.Fetches : Caller → Prop
  | .fetching .. => True
  | _ => False

/-- A clock with the two threads that use it. -/
structure Threads where
  clock : ClockTAI
  owner : Option Thread := none
  state : Option BulletinState := none
  stateLastUpdated : ℤ := 0
  offsetFuture : Option Task := none
  caller : Caller := .idle

namespace Threads

/-- The start of a call, a step of the caller, or a step of the refresh. The environment is that
of a fetch which the step starts or launches. -/
inductive Op where
  | call (timeNow : ℤ)
  | caller (env : Env)
  | refresh

section

variable (sort : List Bulletin → List Bulletin)

def fetch (s : Threads) (thread : Thread) (env : Env) (phase : Fetch) : Fetch × Threads :=
  match phase with
  | .locking =>
    if s.owner = none then (.checking, { s with owner := some thread }) else (.locking, s)
  | .returned outcome => (.returned outcome, s)
  | phase =>
    match Fetch.next sort env s.clock phase with
    -- The lock ends with the scope of the function.
    | (.returned outcome, clock) => (.returned outcome, { s with owner := none, clock })
    | (phase, clock) => (phase, { s with clock })

/-- Once an hour has passed, collect the outcome of the refresh, or launch one. -/
def poll (s : Threads) (timeNow : ℤ) (env : Env) : Threads :=
  if s.stateLastUpdated + hours 1 < timeNow then
    match s.offsetFuture with
    | some { phase := .returned (.ok state), .. } =>
      { s with state := some state, stateLastUpdated := timeNow, offsetFuture := none }
    | some { phase := .returned (.error _), .. } =>
      { s with
        stateLastUpdated := s.stateLastUpdated + hours refreshRetryIntervalHours
        offsetFuture := none }
    | some _ => s
    | none => { s with offsetFuture := some { env } }
  else s

def stepCaller (s : Threads) (env : Env) : Option (Except GetOffsetError ℤ) × Threads :=
  match s.caller with
  | .idle => (none, s)
  | .locking timeNow =>
    if s.owner = none then (none, { s with owner := some .caller, caller := .entered timeNow })
    else (none, s)
  | .entered timeNow =>
    match s.state with
    | none => (none, { s with owner := none, caller := .fetching timeNow env .locking })
    | some _ => (none, { s with caller := .polling timeNow })
  | .fetching timeNow _ (.returned (.ok state)) =>
    (none, { s with state := some state, caller := .relocking timeNow })
  | .fetching _ _ (.returned (.error _)) =>
    (some (.error (.runtimeError "Unable to download TAI bulletin")), { s with caller := .idle })
  | .fetching timeNow env phase =>
    let (phase, s) := s.fetch sort .caller env phase
    (none, { s with caller := .fetching timeNow env phase })
  | .relocking timeNow =>
    if s.owner = none then
      (none, { s with
        owner := some .caller
        stateLastUpdated := timeNow
        caller := .polling timeNow })
    else (none, s)
  | .polling timeNow =>
    let s := s.poll timeNow env
    match s.state with
    | some state => (some (.ok state.offset), { s with owner := none, caller := .idle })
    | none =>
      (some (.error (.logicError "ClockTAI: No valid m_state at end of get_offset()")),
        { s with owner := none, caller := .idle })

def stepRefresh (s : Threads) : Threads :=
  match s.offsetFuture with
  | none => s
  | some task =>
    let (phase, s) := s.fetch sort .refresh task.env task.phase
    { s with offsetFuture := some { task with phase } }

def step (s : Threads) : Op → Option (Except GetOffsetError ℤ) × Threads
  | .call timeNow =>
    match s.caller with
    | .idle => (none, { s with caller := .locking timeNow })
    | _ => (none, s)
  | .caller env => s.stepCaller sort env
  | .refresh => (none, s.stepRefresh sort)

end

/-- A call has to wait for the mutex while the refresh holds it in a download or at the file of
the cache. -/
def Stalled (s : Threads) : Prop :=
  s.caller.Locks ∧ s.owner = some .refresh ∧ ∃ task ∈ s.offsetFuture, task.phase.Busy

instance : DecidablePred Stalled := fun s =>
  inferInstanceAs (Decidable (s.caller.Locks ∧ s.owner = some .refresh ∧
    ∃ task ∈ s.offsetFuture, task.phase.Busy))

/-- No call starts while the refresh is in a download or at the file of the cache, and the refresh
does not find that the bulletin in memory is not usable while a call waits. -/
def Unhindered (s : Threads) : Op → Prop
  | .call _ => s.caller.Idle → ∀ task ∈ s.offsetFuture, ¬ task.phase.Busy
  | .caller _ => True
  | .refresh => s.caller.Locks → ∀ task ∈ s.offsetFuture, task.phase.Checks →
      (s.clock.bulletin.state task.env.now).usable task.env.now

instance : ∀ (s : Threads) (op : Op), Decidable (s.Unhindered op)
  | s, .call _ => inferInstanceAs (Decidable
      (s.caller.Idle → ∀ task ∈ s.offsetFuture, ¬ task.phase.Busy))
  | _, .caller _ => inferInstanceAs (Decidable True)
  | s, .refresh => inferInstanceAs (Decidable (s.caller.Locks → ∀ task ∈ s.offsetFuture,
      task.phase.Checks → (s.clock.bulletin.state task.env.now).usable task.env.now))

/-- The caller and the refresh own the mutex when they hold it. The caller fetches only without a
state, and without a state there is no refresh. -/
structure Consistent (s : Threads) : Prop where
  caller_owns : s.caller.Holds → s.owner = some .caller
  refresh_owns : ∀ task, s.offsetFuture = some task → task.phase.Holds → s.owner = some .refresh
  fetches : s.caller.Fetches → s.state = none
  polls : s.caller.Polls → s.state ≠ none
  no_refresh : s.state = none → s.offsetFuture = none

section Lemmas

variable {sort : List Bulletin → List Bulletin} {s : Threads}

theorem fetch_of_holds {phase : Fetch} (h : phase.Holds) (s : Threads) (thread : Thread)
    (env : Env) :
    s.fetch sort thread env phase =
      match Fetch.next sort env s.clock phase with
      | (.returned outcome, clock) => (.returned outcome, { s with owner := none, clock })
      | (phase, clock) => (phase, { s with clock }) := by
  cases phase with
  | locking => exact h.elim
  | returned outcome => exact h.elim
  | _ => rfl

theorem fetch_cases (sort : List Bulletin → List Bulletin) (s : Threads) (thread : Thread)
    (env : Env) (phase : Fetch) :
    (phase = .locking ∧ s.owner = none ∧
      s.fetch sort thread env phase = (.checking, { s with owner := some thread })) ∨
    (¬ phase.Holds ∧ (phase = .locking → s.owner ≠ none) ∧
      s.fetch sort thread env phase = (phase, s)) ∨
    (phase.Holds ∧ ∃ f clock, Fetch.next sort env s.clock phase = (f, clock) ∧
      ((f.Holds ∧ s.fetch sort thread env phase = (f, { s with clock })) ∨
        (¬ f.Holds ∧ f ≠ .locking ∧
          s.fetch sort thread env phase = (f, { s with owner := none, clock })))) := by
  by_cases hholds : phase.Holds
  · right
    right
    rw [fetch_of_holds hholds]
    have hf : (Fetch.next sort env s.clock phase).1 ≠ .locking :=
      Fetch.next_ne_locking (Fetch.holds_iff.mp hholds).1 s.clock
    generalize Fetch.next sort env s.clock phase = p at hf ⊢
    obtain ⟨f, clock⟩ := p
    refine ⟨hholds, f, clock, rfl, ?_⟩
    cases f with
    | locking => exact absurd rfl hf
    | returned outcome => exact Or.inr ⟨id, hf, rfl⟩
    | _ => exact Or.inl ⟨trivial, rfl⟩
  · cases phase with
    | locking =>
      by_cases howner : s.owner = none
      · exact Or.inl ⟨rfl, howner, by rw [fetch, if_pos howner]⟩
      · exact Or.inr (Or.inl ⟨hholds, fun _ => howner, by rw [fetch, if_neg howner]⟩)
    | returned outcome => exact Or.inr (Or.inl ⟨hholds, fun h => (nomatch h), rfl⟩)
    | _ => exact absurd trivial hholds

theorem fetch_frame (sort : List Bulletin → List Bulletin) (s : Threads) (thread : Thread)
    (env : Env) (phase : Fetch) :
    (s.fetch sort thread env phase).2.offsetFuture = s.offsetFuture ∧
      (s.fetch sort thread env phase).2.state = s.state ∧
      (s.fetch sort thread env phase).2.caller = s.caller := by
  rcases fetch_cases sort s thread env phase with
    ⟨-, -, he⟩ | ⟨-, -, he⟩ | ⟨-, f, clock, -, ⟨-, he⟩ | ⟨-, -, he⟩⟩ <;> simp [he]

theorem poll_frame (s : Threads) (timeNow : ℤ) (env : Env) :
    (s.poll timeNow env).clock = s.clock ∧ (s.poll timeNow env).owner = s.owner ∧
      (s.poll timeNow env).caller = s.caller ∧
      ((s.poll timeNow env).state = none → s.state = none) ∧
      ∀ task, (s.poll timeNow env).offsetFuture = some task →
        s.offsetFuture = some task ∨ task = { env } := by
  fun_cases poll s timeNow env with
  | case4 hdue hfuture => exact ⟨rfl, rfl, rfl, id, fun task h => Or.inr (Option.some.inj h).symm⟩
  | _ => simp_all

theorem Consistent.caller_or_refresh (h : s.Consistent) (hcaller : s.caller.Holds) {task : Task}
    (htask : s.offsetFuture = some task) : ¬ task.phase.Holds := by
  intro hholds
  have howner := h.refresh_owns task htask hholds
  rw [h.caller_owns hcaller] at howner
  cases howner

theorem Consistent.stepRefresh (h : s.Consistent) : (s.stepRefresh sort).Consistent := by
  unfold Threads.stepRefresh
  split
  · exact h
  · rename_i task htask
    have hstate : s.state ≠ none := fun hn => (nomatch htask.symm.trans (h.no_refresh hn))
    rcases fetch_cases sort s .refresh task.env task.phase with
      ⟨-, howner, he⟩ | ⟨hholds, -, he⟩ | ⟨hholds, f, clock, -, ⟨hf, he⟩ | ⟨hf, -, he⟩⟩ <;> rw [he]
    · refine ⟨fun hc => ?_, fun _ _ _ => rfl, h.fetches, h.polls, fun hn => absurd hn hstate⟩
      rw [h.caller_owns hc] at howner
      cases howner
    · refine ⟨h.caller_owns, fun _ ht => ?_, h.fetches, h.polls, fun hn => absurd hn hstate⟩
      cases ht
      exact fun hp => absurd hp hholds
    · exact ⟨h.caller_owns, fun _ _ _ => h.refresh_owns task htask hholds, h.fetches, h.polls,
        fun hn => absurd hn hstate⟩
    · refine ⟨fun hc => absurd hholds (h.caller_or_refresh hc htask), fun _ ht => ?_, h.fetches,
        h.polls, fun hn => absurd hn hstate⟩
      cases ht
      exact fun hp => absurd hp hf

theorem Consistent.lock (h : s.Consistent) (howner : s.owner = none) {task : Task}
    (htask : s.offsetFuture = some task) : ¬ task.phase.Holds := by
  intro hholds
  have := h.refresh_owns task htask hholds
  rw [howner] at this
  cases this

theorem Consistent.poll (h : s.Consistent) (hcaller : s.caller.Holds) {timeNow : ℤ} {env : Env}
    (task : Task) (htask : (s.poll timeNow env).offsetFuture = some task) :
    ¬ task.phase.Holds := by
  rcases (poll_frame s timeNow env).2.2.2.2 task htask with ht | rfl
  · exact h.caller_or_refresh hcaller ht
  · exact id

theorem Consistent.stepCaller (h : s.Consistent) (env : Env) :
    (s.stepCaller sort env).2.Consistent := by
  fun_cases Threads.stepCaller sort s env with
  | case1 => exact h
  | case2 timeNow hcaller howner =>
    exact ⟨fun _ => rfl, fun _ ht hp => absurd hp (h.lock howner ht), fun hf => hf.elim,
      fun hp => hp.elim, h.no_refresh⟩
  | case3 => exact h
  | case4 timeNow hcaller hstate =>
    refine ⟨fun hc => hc.elim, fun _ ht => ?_, fun _ => hstate, fun hp => hp.elim, h.no_refresh⟩
    exact nomatch ht.symm.trans (h.no_refresh hstate)
  | case5 timeNow hcaller state hstate =>
    have hholds : s.caller.Holds := by rw [hcaller]; trivial
    exact ⟨fun _ => h.caller_owns hholds, h.refresh_owns, fun hf => hf.elim,
      fun _ hn => (nomatch hstate.symm.trans hn), h.no_refresh⟩
  | case6 timeNow env' state hcaller =>
    exact ⟨fun hc => hc.elim, h.refresh_owns, fun hf => hf.elim, fun _ hn => (nomatch hn),
      fun hn => (nomatch hn)⟩
  | case7 timeNow env' e hcaller =>
    exact ⟨fun hc => hc.elim, h.refresh_owns, fun hf => hf.elim, fun hp => hp.elim, h.no_refresh⟩
  | case8 timeNow env' phase hok herror hcaller phase' s' hfetch =>
    have hstate := h.fetches (by rw [hcaller]; trivial)
    have hnone := h.no_refresh hstate
    rcases fetch_cases sort s .caller env' phase with
      ⟨-, -, he⟩ | ⟨hholds, -, he⟩ | ⟨hholds, f, clock, -, ⟨-, he⟩ | ⟨hf, -, he⟩⟩ <;>
      obtain ⟨rfl, rfl⟩ := Prod.mk.inj (hfetch.symm.trans he)
    · exact ⟨fun _ => rfl, fun _ ht => (nomatch ht.symm.trans hnone), fun _ => hstate,
        fun hp => hp.elim, fun _ => hnone⟩
    · exact ⟨fun hc => absurd hc hholds, fun _ ht => (nomatch ht.symm.trans hnone),
        fun _ => hstate, fun hp => hp.elim, fun _ => hnone⟩
    · exact ⟨fun _ => h.caller_owns (by rw [hcaller]; exact hholds),
        fun _ ht => (nomatch ht.symm.trans hnone), fun _ => hstate, fun hp => hp.elim,
        fun _ => hnone⟩
    · exact ⟨fun hc => absurd hc hf, fun _ ht => (nomatch ht.symm.trans hnone),
        fun _ => hstate, fun hp => hp.elim, fun _ => hnone⟩
  | case9 timeNow hcaller howner =>
    have hstate := h.polls (by rw [hcaller]; trivial)
    exact ⟨fun _ => rfl, fun _ ht hp => absurd hp (h.lock howner ht), fun hf => hf.elim,
      fun _ => hstate, h.no_refresh⟩
  | case10 => exact h
  | case11 timeNow hcaller s' state hstate =>
    exact ⟨fun hc => hc.elim,
      fun task ht hp => absurd hp (h.poll (by rw [hcaller]; trivial) task ht),
      fun hf => hf.elim, fun hp => hp.elim, fun hn => (nomatch hstate.symm.trans hn)⟩
  | case12 timeNow hcaller s' hstate =>
    have hbefore := (poll_frame s timeNow env).2.2.2.1 hstate
    exact absurd hbefore (h.polls (by rw [hcaller]; trivial))

theorem Consistent.step (h : s.Consistent) (op : Op) : (s.step sort op).2.Consistent := by
  cases op with
  | call timeNow =>
    unfold Threads.step
    dsimp only
    split
    · exact ⟨fun hc => hc.elim, h.refresh_owns, fun hf => hf.elim, fun hp => hp.elim,
        h.no_refresh⟩
    · exact h
  | caller env => exact h.stepCaller env
  | refresh => exact h.stepRefresh

theorem not_stalled_stepCaller (h : s.Consistent) (hnot : ¬ s.Stalled) (env : Env) :
    ¬ (s.stepCaller sort env).2.Stalled := by
  fun_cases Threads.stepCaller sort s env with
  | case1 => exact hnot
  | case2 => exact fun hs => hs.1.elim
  | case3 => exact hnot
  | case4 => exact fun hs => (nomatch hs.2.1)
  | case5 => exact fun hs => hs.1.elim
  | case6 timeNow env' state hcaller =>
    have hnone := h.no_refresh (h.fetches (by rw [hcaller]; trivial))
    rintro ⟨-, -, task, htask, -⟩
    exact nomatch hnone.symm.trans htask
  | case7 => exact fun hs => hs.1.elim
  | case8 timeNow env' phase hok herror hcaller phase' s' hfetch =>
    have hnone := h.no_refresh (h.fetches (by rw [hcaller]; trivial))
    have hframe := (fetch_frame sort s .caller env' phase).1
    rw [hfetch] at hframe
    rintro ⟨-, -, task, htask, -⟩
    exact nomatch hnone.symm.trans (hframe.symm.trans htask)
  | case9 => exact fun hs => hs.1.elim
  | case10 => exact hnot
  | case11 => exact fun hs => hs.1.elim
  | case12 => exact fun hs => hs.1.elim

/-- A step of the refresh makes a call wait for it exactly if it leaves an unusable bulletin in
memory behind. -/
theorem stalled_stepRefresh_iff (h : s.Consistent) (hnot : ¬ s.Stalled) :
    (s.stepRefresh sort).Stalled ↔ ¬ s.Unhindered .refresh := by
  unfold Threads.stepRefresh
  split
  · rename_i hnone
    refine iff_of_false hnot (not_not.mpr fun _ task htask => ?_)
    exact nomatch hnone.symm.trans htask
  · rename_i task htask
    have hchecks (hop : ¬ s.Unhindered .refresh) : s.caller.Locks ∧ task.phase = .checking ∧
        ¬ (s.clock.bulletin.state task.env.now).usable task.env.now := by
      simp only [Unhindered, htask, Option.mem_some_iff, forall_eq', not_forall] at hop
      obtain ⟨hlocks, hchecks, husable⟩ := hop
      exact ⟨hlocks, hchecks.eq, husable⟩
    rcases fetch_cases sort s .refresh task.env task.phase with
      ⟨hphase, -, he⟩ | ⟨hholds, -, he⟩ | ⟨hholds, f, clock, hnext, ⟨hf, he⟩ | ⟨hf, -, he⟩⟩ <;>
      rw [he]
    · refine iff_of_false (fun ⟨_, _, _, ht, hbusy⟩ => ?_) fun hop => ?_
      · cases ht
        exact hbusy
      · exact nomatch hphase.symm.trans (hchecks hop).2.1
    · refine iff_of_false (fun ⟨_, _, _, ht, hbusy⟩ => ?_) fun hop => ?_
      · cases ht
        exact hholds hbusy.holds
      · rw [(hchecks hop).2.1] at hholds
        exact hholds trivial
    · have howner := h.refresh_owns task htask hholds
      constructor
      · rintro ⟨hlocks, -, _, ht, hbusy⟩ hop
        cases ht
        have hafter : (Fetch.next sort task.env s.clock task.phase).1.Busy := by
          rw [hnext]
          exact hbusy
        rcases Fetch.busy_next hafter with hbefore | ⟨hphase, husable⟩
        · exact hnot ⟨hlocks, howner, task, htask, hbefore⟩
        · exact husable (hop hlocks task htask (by rw [hphase]; trivial))
      · intro hop
        obtain ⟨hlocks, hphase, husable⟩ := hchecks hop
        rw [hphase, Fetch.next_checking husable] at hnext
        cases hnext
        exact ⟨hlocks, howner, _, rfl, trivial⟩
    · refine iff_of_false (fun ⟨_, ho, _⟩ => (nomatch ho)) fun hop => ?_
      obtain ⟨-, hphase, husable⟩ := hchecks hop
      rw [hphase, Fetch.next_checking husable] at hnext
      cases hnext
      exact hf trivial

theorem stalled_step_iff (h : s.Consistent) (hnot : ¬ s.Stalled) (op : Op) :
    (s.step sort op).2.Stalled ↔ ¬ s.Unhindered op := by
  cases op with
  | call timeNow =>
    unfold Threads.step
    dsimp only
    split
    · rename_i hcaller
      have hidle : s.caller.Idle := by rw [hcaller]; trivial
      constructor
      · rintro ⟨-, -, task, htask, hbusy⟩ hop
        exact hop hidle task htask hbusy
      · intro hop
        simp only [Unhindered, hidle, forall_const, not_forall, not_not] at hop
        obtain ⟨task, htask, hbusy⟩ := hop
        exact ⟨trivial, h.refresh_owns task htask hbusy.holds, task, htask, hbusy⟩
    · rename_i hcaller
      refine iff_of_false hnot (not_not.mpr fun hidle => ?_)
      cases hc : s.caller with
      | idle => exact absurd hc hcaller
      | _ => rw [hc] at hidle; exact hidle.elim
  | caller env => exact iff_of_false (not_stalled_stepCaller h hnot env) (not_not.mpr trivial)
  | refresh => exact stalled_stepRefresh_iff h hnot

theorem consistent_new (clock : ClockTAI) : ({ clock } : Threads).Consistent :=
  ⟨fun h => h.elim, fun _ h => (nomatch h), fun h => h.elim, fun h => h.elim, fun _ => rfl⟩

theorem state_stepRefresh : (s.stepRefresh sort).state = s.state := by
  unfold Threads.stepRefresh
  split
  · rfl
  · exact (fetch_frame ..).2.1

theorem state_stepCaller_ne_none (h : s.state ≠ none) (env : Env) :
    (s.stepCaller sort env).2.state ≠ none := by
  fun_cases Threads.stepCaller sort s env with
  | case4 timeNow hcaller hstate => exact absurd hstate h
  | case6 => exact fun hn => (nomatch hn)
  | case8 timeNow env' phase hok herror hcaller phase' s' hfetch =>
    have hframe := (fetch_frame sort s .caller env' phase).2.1
    rw [hfetch] at hframe
    exact fun hn => h (hframe.symm.trans hn)
  | case11 timeNow hcaller s' state hstate => exact fun hn => (nomatch hstate.symm.trans hn)
  | case12 timeNow hcaller s' hstate =>
    exact absurd ((poll_frame s timeNow env).2.2.2.1 hstate) h
  | _ => exact h

theorem state_step_ne_none (h : s.state ≠ none) (op : Op) : (s.step sort op).2.state ≠ none := by
  cases op with
  | call timeNow =>
    unfold Threads.step
    dsimp only
    split
    · exact h
    · exact h
  | caller env => exact state_stepCaller_ne_none h env
  | refresh =>
    change (s.stepRefresh sort).state ≠ none
    rwa [state_stepRefresh]

theorem state_of_ok {op : Op} {offset : ℤ} (h : (s.step sort op).1 = some (.ok offset)) :
    (s.step sort op).2.state ≠ none := by
  cases op with
  | call timeNow =>
    unfold Threads.step at h
    dsimp only at h
    split at h
    · cases h
    · cases h
  | caller env =>
    revert h
    change (s.stepCaller sort env).1 = _ → (s.stepCaller sort env).2.state ≠ none
    fun_cases Threads.stepCaller sort s env with
    | case11 timeNow hcaller s' state hstate => exact fun _ hn => (nomatch hstate.symm.trans hn)
    | _ => exact fun h => (nomatch h)
  | refresh => cases h

end Lemmas

/-- In every run no call waits for a refresh in a download or at the file of the cache, exactly if
no call starts during these and the refresh never finds an unusable bulletin in memory while a
call waits. In every run no call fetches the offset itself after one that returned. -/
theorem never_stalled_iff {sort : List Bulletin → List Bulletin} (clock : ClockTAI)
    (ops : List Op) :
    (Mealy.Along (step sort) Unhindered { clock } ops ↔
      ∀ i, ¬ (Mealy.state (step sort) { clock } (ops.take i)).Stalled) ∧
    ∀ i j offset, (Mealy.outputs (step sort) { clock } ops)[i]? = some (some (.ok offset)) →
      i < j → ¬ (Mealy.state (step sort) { clock } (ops.take j)).caller.Fetches := by
  constructor
  · exact Mealy.along_iff_forall_take (I := Consistent) (B := Stalled)
      (fun s op h => h.step op) (fun s op h hnot => stalled_step_iff h hnot op)
      (consistent_new clock) (fun h => h.1.elim) ops
  · intro i j offset hi hij hfetches
    rw [Mealy.outputs_getElem?] at hi
    obtain ⟨op, hop, hok⟩ := Option.map_eq_some_iff.mp hi
    have hstate : (Mealy.state (step sort) { clock } (ops.take (i + 1))).state ≠ none := by
      rw [Mealy.state_take_succ hop]
      exact state_of_ok hok
    have hlater : (Mealy.state (step sort) { clock } (ops.take j)).state ≠ none :=
      Mealy.invariant_take (I := fun s : Threads => s.state ≠ none) hij hstate
        fun s op hs => state_step_ne_none hs op
    have hconsistent := Mealy.invariant (I := Consistent) (ops.take j) (consistent_new clock)
      fun s op h => (h.step op : (s.step sort op).2.Consistent)
    exact hlater (hconsistent.fetches hfetches)

def usableEnv : Env := { expiredEnv with now := 1483228000 }

/-- A call that downloads the bulletin, and a call two hours later that launches a refresh. -/
def launched (env : Env) : List Op :=
  .call 0 :: List.replicate 10 (.caller usableEnv) ++
    .call (hours 2) :: List.replicate 3 (.caller env)

/-- The bulletin has expired, and the refresh is in its download when the next call starts. -/
def stalling : List Op :=
  launched expiredEnv ++ [.refresh, .refresh, .refresh, .call (hours 2 + 1)]

/-- The bulletin has not expired, and the refresh ends while the next call waits. -/
def waiting : List Op :=
  launched usableEnv ++ [.call (hours 2 + 1), .refresh, .refresh, .caller usableEnv]

/-- After a call that returned, a call waits while the refresh is in its download. -/
theorem call_stalls :
    ∃ i j offset, i < j ∧
      (Mealy.outputs (step (sortByExpiry expiredEnv.now)) { clock := ⟨["first"], {}, none⟩ }
        stalling)[i]? = some (some (.ok offset)) ∧
      (Mealy.state (step (sortByExpiry expiredEnv.now)) { clock := ⟨["first"], {}, none⟩ }
        (stalling.take j)).Stalled :=
  ⟨10, 19, 36, by decide, by decide +kernel, by decide +kernel⟩

theorem never_stalled_waiting :
    ∀ i, ¬ (Mealy.state (step (sortByExpiry usableEnv.now)) { clock := ⟨["first"], {}, none⟩ }
      (waiting.take i)).Stalled :=
  (never_stalled_iff _ _).1.mp (by decide +kernel)

end Threads

end SourceCompanion.ClockTAI
