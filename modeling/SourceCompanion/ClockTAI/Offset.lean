import Mathlib.Data.List.Induction
import SourceCompanion.ClockTAI.ValidOffset
import SourceCompanion.Run.Mealy

/-! # Refreshing the offset

The first call fetches the offset itself. Later calls launch a refresh in the background once an
hour has passed, and collect what it obtained in the first call after its end.
-/

namespace SourceCompanion.ClockTAI

abbrev Outcome := Except DownloadFailed BulletinState

/-- A time in hours on a clock that counts nanoseconds. -/
def hours (n : ℤ) : ℤ := 3600000000000 * n

def refreshRetryIntervalHours : ℤ := 1

/-- What `get_offset` reads and writes. A task is a refresh that has been launched, and it has no
outcome as long as it is in flight. The future belongs to one of the tasks, or is not valid. -/
structure Refresh where
  state : Option BulletinState := none
  stateLastUpdated : ℤ := 0
  offsetFuture : Option ℕ := none
  tasks : List (Option Outcome) := []

inductive GetOffsetError where
  | runtimeError (what : String)
  | logicError (what : String)
  deriving DecidableEq, Repr

/-- A call with its reading of the clock, and the outcome of fetching the offset if it does that,
or the end of a task. -/
inductive Action where
  | getOffset (timeNow : ℤ) (fetched : Outcome)
  | complete (task : ℕ) (outcome : Outcome)

namespace Refresh

def initialise (s : Refresh) (timeNow : ℤ) (fetched : Outcome) : Except GetOffsetError Refresh :=
  match s.state with
  | some _ => .ok s
  | none =>
    match fetched with
    | .ok state => .ok { s with state := some state, stateLastUpdated := timeNow }
    | .error _ => .error (.runtimeError "Unable to download TAI bulletin")

/-- Once an hour has passed, collect the outcome of the refresh, or launch one. -/
def poll (s : Refresh) (timeNow : ℤ) : Refresh :=
  if s.stateLastUpdated + hours 1 < timeNow then
    match s.offsetFuture with
    | some task =>
      match s.tasks[task]? with
      | some (some (.ok state)) =>
        { s with state := some state, stateLastUpdated := timeNow, offsetFuture := none }
      | some (some (.error _)) =>
        { s with
          stateLastUpdated := s.stateLastUpdated + hours refreshRetryIntervalHours
          offsetFuture := none }
      | _ => s
    | none => { s with offsetFuture := some s.tasks.length, tasks := s.tasks ++ [none] }
  else s

def getOffset (s : Refresh) (timeNow : ℤ) (fetched : Outcome) :
    Except GetOffsetError ℤ × Refresh :=
  match s.initialise timeNow fetched with
  | .error e => (.error e, s)
  | .ok s =>
    let s := s.poll timeNow
    match s.state with
    | some state => (.ok state.offset, s)
    | none => (.error (.logicError "ClockTAI: No valid m_state at end of get_offset()"), s)

def complete (s : Refresh) (task : ℕ) (outcome : Outcome) : Refresh :=
  if s.tasks[task]? = some none then { s with tasks := s.tasks.set task (some outcome) } else s

def step (s : Refresh) : Action → Option (Except GetOffsetError ℤ) × Refresh
  | .getOffset timeNow fetched => (s.getOffset timeNow fetched).map some id
  | .complete task outcome => (none, s.complete task outcome)

/-- The state that an action obtains: the one that the first call fetches, or the outcome of the
task that ends. -/
def obtained (s : Refresh) : Action → Option BulletinState
  | .getOffset _ fetched => if s.state = none then fetched.toOption else none
  | .complete task outcome => if s.tasks[task]? = some none then outcome.toOption else none

/-- The state obtained last along some actions. -/
def lastObtained (s : Refresh) (last : Option BulletinState) : List Action → Option BulletinState
  | [] => last
  | a :: as => lastObtained (s.step a).2 ((s.obtained a).or last) as

def Action.reading? : Action → Option ℤ
  | .getOffset timeNow _ => some timeNow
  | .complete _ _ => none

def readings (as : List Action) : List ℤ := as.filterMap Action.reading?

theorem readings_append (as as' : List Action) :
    readings (as ++ as') = readings as ++ readings as' :=
  List.filterMap_append

def inFlight (s : Refresh) : ℕ := s.tasks.countP Option.isNone

theorem poll_cases (s : Refresh) (timeNow : ℤ) :
    (s.poll timeNow = s ∧ (¬ s.stateLastUpdated + hours 1 < timeNow ∨
      ∃ task, s.offsetFuture = some task ∧ ∀ outcome, s.tasks[task]? ≠ some (some outcome))) ∨
    (∃ task state, s.offsetFuture = some task ∧ s.tasks[task]? = some (some (.ok state)) ∧
      s.stateLastUpdated + hours 1 < timeNow ∧ s.poll timeNow =
        { s with state := some state, stateLastUpdated := timeNow, offsetFuture := none }) ∨
    (∃ task e, s.offsetFuture = some task ∧ s.tasks[task]? = some (some (.error e)) ∧
      s.stateLastUpdated + hours 1 < timeNow ∧ s.poll timeNow = { s with
        stateLastUpdated := s.stateLastUpdated + hours refreshRetryIntervalHours
        offsetFuture := none }) ∨
    (s.offsetFuture = none ∧ s.stateLastUpdated + hours 1 < timeNow ∧ s.poll timeNow =
      { s with offsetFuture := some s.tasks.length, tasks := s.tasks ++ [none] }) := by
  unfold poll
  by_cases hdue : s.stateLastUpdated + hours 1 < timeNow
  · rw [if_pos hdue]
    cases hfuture : s.offsetFuture with
    | none => simp [hdue]
    | some task =>
      rcases htask : s.tasks[task]? with _ | _ | e | state
      · simp [htask]
      · simp [htask]
      · refine Or.inr (Or.inr (Or.inl ⟨task, e, rfl, htask, hdue, ?_⟩))
        simp only [htask]
      · simp [htask, hdue]
  · rw [if_neg hdue]
    exact Or.inl ⟨rfl, Or.inl hdue⟩

theorem state_poll_ne_none {s : Refresh} (h : s.state ≠ none) (timeNow : ℤ) :
    (s.poll timeNow).state ≠ none := by
  rcases s.poll_cases timeNow with ⟨he, -⟩ | ⟨_, _, -, -, -, he⟩ | ⟨_, _, -, -, -, he⟩ |
    ⟨-, -, he⟩ <;> rw [he]
  · exact h
  · simp
  · exact h
  · exact h

theorem getOffset_of_ne_none {s : Refresh} (h : s.state ≠ none) (timeNow : ℤ)
    (fetched : Outcome) :
    ∃ state, (s.poll timeNow).state = some state ∧
      s.getOffset timeNow fetched = (.ok state.offset, s.poll timeNow) := by
  obtain ⟨before, hbefore⟩ := Option.ne_none_iff_exists'.mp h
  obtain ⟨state, hstate⟩ := Option.ne_none_iff_exists'.mp (state_poll_ne_none h timeNow)
  refine ⟨state, hstate, ?_⟩
  simp [getOffset, initialise, hbefore, hstate]

theorem getOffset_of_none {s : Refresh} (h : s.state = none) (timeNow : ℤ) (fetched : Outcome) :
    s.getOffset timeNow fetched =
      match fetched with
      | .ok state => (.ok state.offset,
          { s with state := some state, stateLastUpdated := timeNow })
      | .error _ => (.error (.runtimeError "Unable to download TAI bulletin"), s) := by
  cases fetched with
  | error e => simp [getOffset, initialise, h]
  | ok state =>
    have hnot : ¬ timeNow + hours 1 < timeNow := by
      simp [hours]
    simp [getOffset, initialise, h, poll, hnot]

/-- What holds after some actions whose calls read the clock at some times: the state is the one
obtained last, unless it is the outcome of the refresh that was launched last, and that refresh
will be polled by the next call. -/
structure Consistent (s : Refresh) (last : Option BulletinState) (readings : List ℤ) : Prop where
  fresh : s.state = none → s.tasks = [] ∧ s.offsetFuture = none
  idle : s.offsetFuture = none → s.state = last ∧ ∀ outcome ∈ s.tasks, outcome ≠ none
  busy : ∀ task, s.offsetFuture = some task →
    (∃ reading ∈ readings, s.stateLastUpdated + hours 1 < reading) ∧
      ∃ ended outcome, s.tasks = ended ++ [outcome] ∧ task = ended.length ∧
        (∀ o ∈ ended, o ≠ none) ∧ last = (outcome.bind Except.toOption).or s.state

theorem Consistent.inFlight_le {s : Refresh} {last : Option BulletinState} {readings : List ℤ}
    (h : s.Consistent last readings) : s.inFlight ≤ 1 := by
  have hzero : ∀ tasks : List (Option Outcome), (∀ o ∈ tasks, o ≠ none) →
      tasks.countP Option.isNone = 0 := by
    intro tasks hall
    rw [List.countP_eq_zero]
    intro o ho
    simpa using hall o ho
  unfold inFlight
  cases hfuture : s.offsetFuture with
  | none => rw [hzero _ (h.idle hfuture).2]; exact Nat.zero_le _
  | some task =>
    obtain ⟨-, ended, outcome, htasks, -, hended, -⟩ := h.busy task hfuture
    rw [htasks, List.countP_append, hzero ended hended, Nat.zero_add]
    exact List.countP_le_length

theorem Consistent.of_ended {s : Refresh} {last : Option BulletinState} {readings : List ℤ}
    (h : s.Consistent last readings) {task : ℕ} {outcome : Outcome}
    (hf : s.offsetFuture = some task) (ht : s.tasks[task]? = some (some outcome)) :
    last = outcome.toOption.or s.state ∧ ∀ o ∈ s.tasks, o ≠ none := by
  obtain ⟨-, ended, outcome', htasks, rfl, hended, hlast⟩ := h.busy task hf
  rw [htasks, List.getElem?_concat_length, Option.some.injEq] at ht
  subst ht
  refine ⟨hlast, fun o ho => ?_⟩
  rw [htasks, List.mem_append, List.mem_singleton] at ho
  rcases ho with ho | rfl
  · exact hended o ho
  · simp

theorem Consistent.first {s : Refresh} {last : Option BulletinState} {readings : List ℤ}
    (h : s.Consistent last readings) (hstate : s.state = none) (timeNow : ℤ) (fetched : Outcome) :
    (s.getOffset timeNow fetched).2.Consistent (fetched.toOption.or last) (readings ++ [timeNow]) ∧
      (s.getOffset timeNow fetched).2.state = fetched.toOption.or last := by
  obtain ⟨htasks, hfuture⟩ := h.fresh hstate
  obtain ⟨hlast, -⟩ := h.idle hfuture
  rw [hstate] at hlast
  subst hlast
  rw [getOffset_of_none hstate]
  cases fetched with
  | ok state =>
    refine ⟨⟨fun hn => (nomatch hn), fun _ => ⟨rfl, ?_⟩, fun task ht => ?_⟩, rfl⟩
    · simp [htasks]
    · rw [hfuture] at ht
      cases ht
  | error e =>
    refine ⟨⟨h.fresh, h.idle, fun task ht => ?_⟩, hstate⟩
    rw [hfuture] at ht
    cases ht

/-- After a poll the state is the one obtained last. -/
theorem Consistent.poll {s : Refresh} {last : Option BulletinState} {readings : List ℤ}
    (h : s.Consistent last readings) (hstate : s.state ≠ none) {timeNow : ℤ}
    (hord : ∀ r ∈ readings, r ≤ timeNow) :
    (s.poll timeNow).Consistent last (readings ++ [timeNow]) ∧ (s.poll timeNow).state = last := by
  rcases s.poll_cases timeNow with ⟨he, hwait⟩ | ⟨task, state, hf, ht, -, he⟩ |
    ⟨task, e, hf, ht, -, he⟩ | ⟨hf, hdue, he⟩ <;> rw [he]
  · refine ⟨⟨h.fresh, h.idle, fun task ht => ?_⟩, ?_⟩
    · obtain ⟨⟨reading, hr, hlt⟩, hrest⟩ := h.busy task ht
      exact ⟨⟨reading, List.mem_append_left _ hr, hlt⟩, hrest⟩
    · cases hf : s.offsetFuture with
      | none => exact (h.idle hf).1
      | some task =>
        obtain ⟨⟨reading, hr, hlt⟩, ended, outcome, htasks, rfl, -, hlast⟩ := h.busy task hf
        rcases hwait with hnot | ⟨task, hf', hnone⟩
        · exact absurd (hlt.trans_le (hord reading hr)) hnot
        · rw [hf] at hf'
          obtain rfl := Option.some.inj hf'
          cases outcome with
          | none => simpa using hlast.symm
          | some outcome =>
            refine absurd ?_ (hnone outcome)
            rw [htasks, List.getElem?_concat_length]
  · obtain ⟨hlast, hended⟩ := h.of_ended hf ht
    exact ⟨⟨fun hn => (nomatch hn), fun _ => ⟨hlast.symm, hended⟩, fun _ hn => (nomatch hn)⟩,
      hlast.symm⟩
  · obtain ⟨hlast, hended⟩ := h.of_ended hf ht
    exact ⟨⟨fun hn => absurd hn hstate, fun _ => ⟨hlast.symm, hended⟩, fun _ hn => (nomatch hn)⟩,
      hlast.symm⟩
  · obtain ⟨hlast, hended⟩ := h.idle hf
    refine ⟨⟨fun hn => absurd hn hstate, fun hn => (nomatch hn), fun task ht => ?_⟩, hlast⟩
    obtain rfl := Option.some.inj ht
    exact ⟨⟨timeNow, by simp, hdue⟩, s.tasks, none, rfl, rfl, hended, by simpa using hlast.symm⟩

theorem Consistent.getOffset {s : Refresh} {last : Option BulletinState} {readings : List ℤ}
    (h : s.Consistent last readings) {timeNow : ℤ} (hord : ∀ r ∈ readings, r ≤ timeNow)
    (fetched : Outcome) :
    (s.getOffset timeNow fetched).2.Consistent
        ((s.obtained (.getOffset timeNow fetched)).or last) (readings ++ [timeNow]) ∧
      (s.getOffset timeNow fetched).2.state =
        (s.obtained (.getOffset timeNow fetched)).or last := by
  by_cases hstate : s.state = none
  · simp only [obtained, if_pos hstate]
    exact h.first hstate timeNow fetched
  · obtain ⟨state, -, hget⟩ := getOffset_of_ne_none hstate timeNow fetched
    simp only [obtained, if_neg hstate, Option.none_or, hget]
    exact h.poll hstate hord

theorem Consistent.complete {s : Refresh} {last : Option BulletinState} {readings : List ℤ}
    (h : s.Consistent last readings) (task : ℕ) (outcome : Outcome) :
    (s.complete task outcome).Consistent ((s.obtained (.complete task outcome)).or last)
      readings := by
  by_cases htask : s.tasks[task]? = some none
  · simp only [Refresh.complete, obtained, if_pos htask]
    cases hf : s.offsetFuture with
    | none => exact absurd rfl ((h.idle hf).2 none (List.mem_of_getElem? htask))
    | some t =>
      obtain ⟨hdue, ended, outcome', htasks, rfl, hended, hlast⟩ := h.busy t hf
      obtain rfl : task = ended.length := by
        by_contra hne
        have hlt := (List.getElem?_eq_some_iff.mp htask).1
        rw [htasks, List.length_append, List.length_singleton] at hlt
        rw [htasks, List.getElem?_append_left (by omega)] at htask
        exact hended none (List.mem_of_getElem? htask) rfl
      rw [htasks, List.getElem?_concat_length, Option.some.injEq] at htask
      subst htask
      have hset : s.tasks.set ended.length (some outcome) = ended ++ [some outcome] := by
        rw [htasks, List.set_append_right _ _ le_rfl, Nat.sub_self]
        rfl
      refine ⟨fun hn => ?_, fun hn => (nomatch hn), fun t ht => ?_⟩
      · have hnil := (h.fresh hn).1
        simp [htasks] at hnil
      · obtain rfl := Option.some.inj ht
        refine ⟨hdue, ended, some outcome, hset, rfl, hended, ?_⟩
        simp only [Option.bind_none, Option.none_or] at hlast
        rw [hlast]
        rfl
  · simpa only [Refresh.complete, obtained, if_neg htask, Option.none_or] using h

theorem lastObtained_concat (s : Refresh) (last : Option BulletinState) (as : List Action)
    (a : Action) :
    lastObtained s last (as ++ [a]) =
      ((Mealy.state step s as).obtained a).or (lastObtained s last as) := by
  induction as generalizing s last with
  | nil => rfl
  | cons a' as ih => exact ih _ _

theorem consistent_state (as : List Action) (hord : (readings as).Pairwise (· ≤ ·)) :
    (Mealy.state step {} as).Consistent (lastObtained {} none as) (readings as) := by
  induction as using List.reverseRecOn with
  | nil =>
    exact ⟨fun _ => ⟨rfl, rfl⟩, fun _ => ⟨rfl, by simp⟩, fun _ hn => (nomatch hn)⟩
  | append_singleton as a ih =>
    rw [readings_append] at hord
    obtain ⟨hbefore, -, hle⟩ := List.pairwise_append.mp hord
    have h := ih hbefore
    rw [Mealy.state_append, lastObtained_concat, readings_append]
    cases a with
    | getOffset timeNow fetched =>
      exact (h.getOffset (fun r hr => hle r hr timeNow (by simp [readings, Action.reading?]))
        fetched).1
    | complete task outcome =>
      have hnil : readings [Action.complete task outcome] = [] := rfl
      rw [hnil, List.append_nil]
      exact h.complete task outcome

theorem launches_iff (s : Refresh) (timeNow : ℤ) (fetched : Outcome) :
    (s.step (.getOffset timeNow fetched)).2.tasks.length = s.tasks.length + 1 ↔
      s.state ≠ none ∧ s.offsetFuture = none ∧ s.stateLastUpdated + hours 1 < timeNow := by
  by_cases hstate : s.state = none
  · simp only [step, getOffset_of_none hstate, hstate, ne_eq, not_true, false_and, iff_false]
    cases fetched <;> simp
  · obtain ⟨state, -, hget⟩ := getOffset_of_ne_none hstate timeNow fetched
    simp only [step, hget, Prod.map, id]
    rcases s.poll_cases timeNow with ⟨he, hwait⟩ | ⟨task, state', hf, ht, hdue, he⟩ |
      ⟨task, e, hf, ht, hdue, he⟩ | ⟨hf, hdue, he⟩ <;> rw [he]
    · constructor
      · intro h
        omega
      · rintro ⟨-, hf, hdue⟩
        rcases hwait with hnot | ⟨task, hf', -⟩
        · exact absurd hdue hnot
        · rw [hf] at hf'
          cases hf'
    · simp [hf]
    · simp [hf]
    · simp [hstate, hf, hdue]

theorem state_step_ne_none {s : Refresh} (h : s.state ≠ none) (a : Action) :
    (s.step a).2.state ≠ none := by
  cases a with
  | getOffset timeNow fetched =>
    obtain ⟨state, hpoll, hget⟩ := getOffset_of_ne_none h timeNow fetched
    simp only [step, hget, Prod.map, id]
    simp [hpoll]
  | complete task outcome =>
    simp only [step, complete]
    split_ifs
    · exact h
    · exact h

theorem getOffset_of_failed {s : Refresh} {last : Option BulletinState} {rs : List ℤ}
    (h : s.Consistent last rs) {timeNow : ℤ} (hord : ∀ r ∈ rs, r ≤ timeNow) (fetched : Outcome)
    {task : ℕ} {e : DownloadFailed} (hf : s.offsetFuture = some task)
    (ht : s.tasks[task]? = some (some (.error e))) :
    ∃ state, s.state = some state ∧ s.getOffset timeNow fetched = (.ok state.offset, { s with
      stateLastUpdated := s.stateLastUpdated + hours refreshRetryIntervalHours
      offsetFuture := none }) := by
  have hstate : s.state ≠ none := by
    intro hn
    rw [(h.fresh hn).2] at hf
    cases hf
  obtain ⟨⟨reading, hr, hlt⟩, -⟩ := h.busy task hf
  have hdue : s.stateLastUpdated + hours 1 < timeNow := hlt.trans_le (hord reading hr)
  have hpoll : s.poll timeNow = { s with
      stateLastUpdated := s.stateLastUpdated + hours refreshRetryIntervalHours
      offsetFuture := none } := by
    simp only [poll, if_pos hdue, hf, ht]
  obtain ⟨state, hs, hget⟩ := getOffset_of_ne_none hstate timeNow fetched
  rw [hpoll] at hs hget
  exact ⟨state, hs, hget⟩

theorem getOffset_eq_ok {s : Refresh} {timeNow : ℤ} {fetched : Outcome} {offset : ℤ}
    (h : (s.getOffset timeNow fetched).1 = .ok offset) :
    ∃ state, (s.getOffset timeNow fetched).2.state = some state ∧ offset = state.offset := by
  by_cases hstate : s.state = none
  · rw [getOffset_of_none hstate] at h ⊢
    cases fetched with
    | error e => cases h
    | ok state => exact ⟨state, rfl, (Except.ok.inj h).symm⟩
  · obtain ⟨state, hpoll, hget⟩ := getOffset_of_ne_none hstate timeNow fetched
    rw [hget] at h ⊢
    exact ⟨state, hpoll, (Except.ok.inj h).symm⟩

theorem reading_le {as : List Action} (hord : (readings as).Pairwise (· ≤ ·)) {i : ℕ}
    {timeNow : ℤ} {fetched : Outcome} (hi : as[i]? = some (.getOffset timeNow fetched)) :
    ∀ r ∈ readings (as.take i), r ≤ timeNow := by
  have hsub : (readings (as.take (i + 1))).Pairwise (· ≤ ·) :=
    hord.sublist ((List.take_sublist _ _).filterMap _)
  rw [readings, List.take_add_one, hi, List.filterMap_append] at hsub
  intro r hr
  exact (List.pairwise_append.mp hsub).2.2 r hr timeNow (by simp [Action.reading?])

section Runs

variable {as : List Action}

theorem consistent_take (hord : (readings as).Pairwise (· ≤ ·)) (i : ℕ) :
    (Mealy.state step {} (as.take i)).Consistent (lastObtained {} none (as.take i))
      (readings (as.take i)) :=
  consistent_state _ (hord.sublist ((List.take_sublist _ _).filterMap _))

theorem getOffset_of_outputs {i : ℕ} {result : Except GetOffsetError ℤ}
    (h : (Mealy.outputs step {} as)[i]? = some (some result)) :
    ∃ timeNow fetched, as[i]? = some (.getOffset timeNow fetched) ∧
      ((Mealy.state step {} (as.take i)).getOffset timeNow fetched).1 = result := by
  rw [Mealy.outputs_getElem?] at h
  obtain ⟨a, ha, h⟩ := Option.map_eq_some_iff.mp h
  cases a with
  | getOffset timeNow fetched => exact ⟨timeNow, fetched, ha, Option.some.inj h⟩
  | complete task outcome => cases h

theorem ok_of_ok {i j : ℕ} {offset : ℤ} {result : Except GetOffsetError ℤ} (hij : i < j)
    (hi : (Mealy.outputs step {} as)[i]? = some (some (.ok offset)))
    (hj : (Mealy.outputs step {} as)[j]? = some (some result)) :
    ∃ offset', result = .ok offset' := by
  obtain ⟨timeNow, fetched, ha, hok⟩ := getOffset_of_outputs hi
  obtain ⟨timeNow', fetched', -, rfl⟩ := getOffset_of_outputs hj
  have hsome : (Mealy.state step {} (as.take (i + 1))).state ≠ none := by
    obtain ⟨state, hstate, -⟩ := getOffset_eq_ok hok
    rw [Mealy.state_take_succ ha]
    exact fun hn => (nomatch hstate.symm.trans hn)
  have hlater : (Mealy.state step {} (as.take j)).state ≠ none :=
    Mealy.invariant_take (I := fun s : Refresh => s.state ≠ none) hij hsome
      fun s a hs => state_step_ne_none hs a
  obtain ⟨state, -, hget⟩ := getOffset_of_ne_none hlater timeNow' fetched'
  exact ⟨state.offset, congrArg Prod.fst hget⟩

end Runs

end Refresh

end SourceCompanion.ClockTAI
