import Mathlib.Tactic.IntervalCases
import SourceCompanion.ClockTAI.Offset

/-! # Trying a failed refresh again

A failed refresh is due again when the retry interval has passed since it was due before, not since
its failure was seen. So the call that sees the failure late may be followed by another attempt at
once.
-/

namespace SourceCompanion.ClockTAI.Refresh

/-- The state before an action of a run. -/
def before (as : List Action) (i : ℕ) : Refresh := Mealy.state step {} (as.take i)

def Launches (as : List Action) (i : ℕ) : Prop :=
  (before as (i + 1)).tasks.length = (before as i).tasks.length + 1

/-- An action is a call with a reading of the clock. -/
def Calls (as : List Action) (i : ℕ) (timeNow : ℤ) : Prop :=
  ∃ fetched, as[i]? = some (.getOffset timeNow fetched)

/-- An action is a call that finds the refresh failed. -/
def FindsFailure (as : List Action) (i : ℕ) (timeNow : ℤ) : Prop :=
  Calls as i timeNow ∧ ∃ task e, (before as i).offsetFuture = some task ∧
    (before as i).tasks[task]? = some (some (.error e))

/-- The time from which on a refresh that a call finds failed is due again. -/
def dueAgain (as : List Action) (i : ℕ) : ℤ :=
  (before as i).stateLastUpdated + hours refreshRetryIntervalHours + hours 1

/-- What every run of calls gives: no call throws after one that returned, at most one refresh is in
flight, calls return the offset of the state obtained last, and a call that finds the refresh failed
returns the offset of the state before and keeps that state. -/
structure Refreshes (as : List Action) : Prop where
  returns : ∀ (i j : ℕ) (offset : ℤ) (result : Except GetOffsetError ℤ), i < j →
    (Mealy.outputs step {} as)[i]? = some (some (.ok offset)) →
    (Mealy.outputs step {} as)[j]? = some (some result) → ∃ offset', result = .ok offset'
  single : ∀ i, (before as i).inFlight ≤ 1
  newest : ∀ (i : ℕ) (offset : ℤ), (Mealy.outputs step {} as)[i]? = some (some (.ok offset)) →
    ∃ state, lastObtained {} none (as.take (i + 1)) = some state ∧ offset = state.offset
  kept : ∀ i timeNow, FindsFailure as i timeNow → ∃ state, (before as i).state = some state ∧
    (before as (i + 1)).state = some state ∧
    (Mealy.outputs step {} as)[i]? = some (some (.ok state.offset))

/-- After a failure the first call past the due time launches a refresh, and no call before it. -/
def RetriesWhenDue (as : List Action) : Prop :=
  ∀ i j timeNow timeNow', FindsFailure as i timeNow → i < j → Calls as j timeNow' →
    (∀ k timeNow, i < k → k < j → Calls as k timeNow → timeNow ≤ dueAgain as i) →
    (Launches as j ↔ dueAgain as i < timeNow')

/-- After a failure no call launches a refresh until the retry interval has passed. -/
def RetriesLater (as : List Action) : Prop :=
  ∀ i j timeNow timeNow', FindsFailure as i timeNow → i < j → Calls as j timeNow' →
    Launches as j → timeNow + hours refreshRetryIntervalHours ≤ timeNow'

/-- After a failure no call comes between the due time and the end of the retry interval. -/
def NoEarlyCall (as : List Action) : Prop :=
  ∀ i j timeNow timeNow', FindsFailure as i timeNow → i < j → Calls as j timeNow' →
    dueAgain as i < timeNow' → timeNow + hours refreshRetryIntervalHours ≤ timeNow'

variable {as : List Action} {i j : ℕ} {timeNow timeNow' : ℤ}

theorem before_succ {a : Action} (h : as[i]? = some a) :
    before as (i + 1) = ((before as i).step a).2 :=
  Mealy.state_take_succ h

theorem le_of_calls (hord : (readings as).Pairwise (· ≤ ·)) (hij : i < j)
    (hi : Calls as i timeNow) (hj : Calls as j timeNow') : timeNow ≤ timeNow' := by
  obtain ⟨fetched, hi⟩ := hi
  obtain ⟨_, hj⟩ := hj
  refine reading_le hord hj timeNow (List.mem_filterMap.mpr ⟨.getOffset timeNow fetched, ?_, rfl⟩)
  exact List.mem_of_getElem? ((List.getElem?_take_of_lt hij).trans hi)

theorem after_failure (hord : (readings as).Pairwise (· ≤ ·)) (h : FindsFailure as i timeNow) :
    ∃ state, (before as i).state = some state ∧
      (Mealy.outputs step {} as)[i]? = some (some (.ok state.offset)) ∧
      before as (i + 1) = { before as i with
        stateLastUpdated := (before as i).stateLastUpdated + hours refreshRetryIntervalHours
        offsetFuture := none } ∧
      ∀ outcome ∈ (before as i).tasks, outcome ≠ none := by
  obtain ⟨⟨fetched, ha⟩, task, e, hf, ht⟩ := h
  have hconsistent := consistent_take hord i
  obtain ⟨state, hstate, hget⟩ := getOffset_of_failed hconsistent (reading_le hord ha) fetched hf ht
  refine ⟨state, hstate, ?_, ?_, (hconsistent.of_ended hf ht).2⟩
  · rw [Mealy.outputs_getElem?, ha, Option.map_some, step]
    exact congrArg (fun r => some (some r)) (congrArg Prod.fst hget)
  · rw [before_succ ha, step]
    exact congrArg Prod.snd hget

theorem step_of_not_due {s : Refresh} (hstate : s.state ≠ none)
    (hended : ∀ outcome ∈ s.tasks, outcome ≠ none) {a : Action}
    (hdue : ∀ timeNow fetched, a = .getOffset timeNow fetched →
      timeNow ≤ s.stateLastUpdated + hours 1) : (s.step a).2 = s := by
  cases a with
  | getOffset timeNow fetched =>
    obtain ⟨_, -, hget⟩ := getOffset_of_ne_none hstate timeNow fetched
    have hpoll : s.poll timeNow = s := if_neg (not_lt.mpr (hdue timeNow fetched rfl))
    simp only [step, hget, hpoll]
    rfl
  | complete task outcome =>
    have hnone : s.tasks[task]? ≠ some none := fun h => hended none (List.mem_of_getElem? h) rfl
    exact if_neg hnone

theorem before_of_not_due (hord : (readings as).Pairwise (· ≤ ·)) (h : FindsFailure as i timeNow)
    (hij : i < j)
    (hquiet : ∀ k timeNow, i < k → k < j → Calls as k timeNow → timeNow ≤ dueAgain as i) :
    before as j = before as (i + 1) := by
  obtain ⟨state, hstate, -, hafter, hended⟩ := after_failure hord h
  induction j, hij using Nat.le_induction with
  | base => rfl
  | succ j hij ih =>
    have hbefore := ih fun k timeNow hik hkj => hquiet k timeNow hik (Nat.lt_succ_of_lt hkj)
    rcases Nat.lt_or_ge j as.length with hj | hj
    · have ha : as[j]? = some as[j] := List.getElem?_eq_getElem hj
      rw [before_succ ha, hbefore]
      rw [hafter]
      apply step_of_not_due
      · simp [hstate]
      · exact hended
      · intro timeNow fetched hcall
        exact hquiet j timeNow hij (Nat.lt_succ_self j) ⟨fetched, ha.trans (congrArg some hcall)⟩
    · rw [← hbefore, before, before, List.take_of_length_le hj,
        List.take_of_length_le (Nat.le_succ_of_le hj)]

theorem retriesWhenDue (hord : (readings as).Pairwise (· ≤ ·)) : RetriesWhenDue as := by
  intro i j timeNow timeNow' hfails hij ⟨fetched, hj⟩ hquiet
  obtain ⟨state, hstate, -, hafter, -⟩ := after_failure hord hfails
  rw [Launches, before_succ hj, launches_iff, before_of_not_due hord hfails hij hquiet, hafter]
  simp only [hstate, dueAgain, ne_eq, reduceCtorEq, not_false_eq_true, true_and]

/-- The first call past the due time is too early exactly if some call is. -/
theorem retriesLater_iff (hord : (readings as).Pairwise (· ≤ ·)) :
    RetriesLater as ↔ NoEarlyCall as := by
  constructor
  · intro hlater i j timeNow timeNow' hfails hij hj hdue
    induction j using Nat.strong_induction_on generalizing timeNow' with
    | _ j ih =>
      by_cases hquiet : ∀ k timeNow, i < k → k < j → Calls as k timeNow → timeNow ≤ dueAgain as i
      · -- The first call past the due time launches a refresh.
        exact hlater i j timeNow timeNow' hfails hij hj
          ((retriesWhenDue hord i j timeNow timeNow' hfails hij hj hquiet).mpr hdue)
      · push Not at hquiet
        obtain ⟨k, reading, hik, hkj, hk, hlt⟩ := hquiet
        exact (ih k hkj reading hik hk hlt).trans (le_of_calls hord hkj hk hj)
  · intro hearly i j timeNow timeNow' hfails hij hj hlaunches
    by_contra hlt
    have hnotDue : timeNow' ≤ dueAgain as i :=
      not_lt.mp fun hdue => hlt (hearly i j timeNow timeNow' hfails hij hj hdue)
    refine not_lt.mpr hnotDue ((retriesWhenDue hord i j timeNow timeNow' hfails hij hj ?_).mp
      hlaunches)
    intro k reading hik hkj hk
    exact (le_of_calls hord hkj hk hj).trans hnotDue

theorem refreshes (hord : (readings as).Pairwise (· ≤ ·)) : Refreshes as where
  returns _ _ _ _ hij hi hj := ok_of_ok hij hi hj
  single i := (consistent_take hord i).inFlight_le
  newest i offset hi := by
    obtain ⟨timeNow, fetched, ha, hok⟩ := getOffset_of_outputs hi
    obtain ⟨state, hstate, rfl⟩ := getOffset_eq_ok hok
    refine ⟨state, ?_, rfl⟩
    rw [List.take_add_one, ha]
    refine (lastObtained_concat ..).trans ?_
    rw [← ((consistent_take hord i).getOffset (reading_le hord ha) fetched).2, hstate]
  kept i timeNow hfails := by
    obtain ⟨state, hstate, houtput, hafter, -⟩ := after_failure hord hfails
    exact ⟨state, hstate, by rw [hafter]; exact hstate, houtput⟩

/-- In every run of calls with readings in order, with refreshes that end at any time in any way:
what `Refreshes` says holds, a failed refresh is due again by the retry interval later than before,
and it is postponed by the retry interval from the call that finds it failed exactly if no call
comes in between. -/
theorem getOffset_run (as : List Action) (hord : (readings as).Pairwise (· ≤ ·)) :
    Refreshes as ∧ RetriesWhenDue as ∧ (RetriesLater as ↔ NoEarlyCall as) :=
  ⟨refreshes hord, retriesWhenDue hord, retriesLater_iff hord⟩

/-- A refresh that fails, the call that finds it failed, and one that launches another. -/
def failedRefresh : List Action :=
  [.getOffset 0 (.ok ⟨true, 100, 37⟩), .getOffset (hours 2) (.error .downloadFailed),
    .complete 0 (.error .downloadFailed), .getOffset (hours 2) (.error .downloadFailed),
    .getOffset (hours 4) (.error .downloadFailed)]

theorem getOffset_run_failed :
    Launches failedRefresh 4 ∧ RetriesLater failedRefresh := by
  have hfails : FindsFailure failedRefresh 3 (hours 2) :=
    ⟨⟨_, rfl⟩, 0, .downloadFailed, rfl, rfl⟩
  obtain ⟨-, hdue, hlater⟩ := getOffset_run failedRefresh (by decide)
  constructor
  · refine (hdue 3 4 (hours 2) (hours 4) hfails (by decide) ⟨_, rfl⟩ ?_).mpr (by decide)
    intro k timeNow hlt hlt'
    omega
  · refine hlater.mpr ?_
    rintro i j timeNow timeNow' ⟨⟨fetched, hi⟩, -⟩ hij ⟨fetched', hj⟩ hdue
    have hlength : j < failedRefresh.length := (List.getElem?_eq_some_iff.mp hj).1
    change j < 5 at hlength
    interval_cases j <;> interval_cases i <;> cases hi <;> cases hj <;> revert hdue <;> decide

/-- A refresh that fails, with calls that come late and two of them at the same time. -/
def lateRefresh : List Action :=
  [.getOffset 0 (.ok ⟨true, 100, 37⟩), .getOffset (hours 10) (.error .downloadFailed),
    .complete 0 (.error .downloadFailed), .getOffset (hours 10) (.error .downloadFailed),
    .getOffset (hours 10) (.error .downloadFailed)]

/-- The call after the one that finds the failure launches another refresh at the same time. -/
theorem lateRefresh_retried_at_once :
    (readings lateRefresh).Pairwise (· ≤ ·) ∧ FindsFailure lateRefresh 3 (hours 10) ∧
      Calls lateRefresh 4 (hours 10) ∧ Launches lateRefresh 4 ∧ ¬ RetriesLater lateRefresh := by
  have hfails : FindsFailure lateRefresh 3 (hours 10) :=
    ⟨⟨_, rfl⟩, 0, .downloadFailed, rfl, rfl⟩
  have hcalls : Calls lateRefresh 4 (hours 10) := ⟨_, rfl⟩
  have hlaunches : Launches lateRefresh 4 := rfl
  refine ⟨by decide, hfails, hcalls, hlaunches, fun hlater => ?_⟩
  exact absurd (hlater 3 4 (hours 10) (hours 10) hfails (by decide) hcalls hlaunches) (by decide)

end SourceCompanion.ClockTAI.Refresh
