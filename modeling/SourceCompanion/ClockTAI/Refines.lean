import SourceCompanion.ClockTAI.Threads

/-! # Forgetting the threads

The two threads do what calls and ends of refreshes without a mutex do. A call happens when it
polls, or when its own fetch fails, and a refresh ends when its fetch has returned. In between the
values of a first call are not there yet.
-/

namespace SourceCompanion.ClockTAI

open Refresh (readings readings_append)

def Fetch.outcome? : Fetch → Option Outcome
  | .returned outcome => some outcome
  | _ => none

def Caller.reading? : Caller → Option ℤ
  | .idle => none
  | .locking timeNow | .entered timeNow | .fetching timeNow _ _ | .relocking timeNow
  | .polling timeNow => some timeNow

namespace Threads

def Op.reading? : Op → Option ℤ
  | .call timeNow => some timeNow
  | _ => none

/-- The future belongs to the refresh that was launched last, and has its outcome. -/
structure Futures (offsetFuture : Option Task) (r : Refresh) : Prop where
  idle : offsetFuture = none → r.offsetFuture = none
  busy : ∀ task, offsetFuture = some task →
    ∃ ended, r.tasks = ended ++ [task.phase.outcome?] ∧ r.offsetFuture = some ended.length

/-- The state is the same, and so is the time of its last update. -/
def Values (s : Threads) (r : Refresh) : Prop :=
  r.state = s.state ∧ r.stateLastUpdated = s.stateLastUpdated

/-- The values are the same, except that there are none yet as long as the first call has not
polled. -/
def ValuesAt (s : Threads) (r : Refresh) : Caller → Prop
  | .relocking _ => r.state = none
  | .polling timeNow => s.Values r ∨ r.state = none ∧ s.stateLastUpdated = timeNow
  | _ => s.Values r

structure Abstracts (s : Threads) (r : Refresh) : Prop where
  futures : Futures s.offsetFuture r
  values : s.ValuesAt r s.caller

/-- The actions without threads that a step amounts to. -/
structure Matches (s : Threads) (r : Refresh) (op : Op)
    (next : Option (Except GetOffsetError ℤ) × Threads) (as : List Action) : Prop where
  abstracts : next.2.Abstracts (Mealy.state Refresh.step r as)
  outputs : next.1.toList = (Mealy.outputs Refresh.step r as).flatMap Option.toList
  calls : (readings as ++ next.2.caller.reading?.toList).Sublist
    (s.caller.reading?.toList ++ op.reading?.toList)

section Lemmas

variable {sort : List Bulletin → List Bulletin} {s : Threads} {r : Refresh}

theorem Futures.poll (hf : Futures s.offsetFuture r) (hv : s.Values r) (timeNow : ℤ) (env : Env) :
    Futures (s.poll timeNow env).offsetFuture (r.poll timeNow) ∧
      (s.poll timeNow env).Values (r.poll timeNow) := by
  obtain ⟨hstate, hlast⟩ := hv
  unfold Threads.poll Refresh.poll
  rw [hlast]
  split
  · cases hfuture : s.offsetFuture with
    | none =>
      rw [hf.idle hfuture]
      refine ⟨⟨fun h => (nomatch h), fun task h => ?_⟩, hstate, rfl⟩
      obtain rfl := Option.some.inj h
      exact ⟨r.tasks, rfl, rfl⟩
    | some task =>
      obtain ⟨ended, htasks, hfuture'⟩ := hf.busy task hfuture
      have hget : r.tasks[ended.length]? = some task.phase.outcome? := by
        rw [htasks, List.getElem?_concat_length]
      obtain ⟨env', phase⟩ := task
      cases phase with
      | returned outcome =>
        cases outcome with
        | ok state =>
          simp only [hfuture', hget, Fetch.outcome?]
          exact ⟨⟨fun _ => rfl, fun _ h => (nomatch h)⟩, rfl, rfl⟩
        | error e =>
          simp only [hfuture', hget, Fetch.outcome?]
          exact ⟨⟨fun _ => rfl, fun _ h => (nomatch h)⟩, hstate, rfl⟩
      | _ =>
        simp only [hfuture', hget, Fetch.outcome?]
        exact ⟨hf, hstate, hlast⟩
  · exact ⟨hf, hstate, hlast⟩

theorem outcome?_of_holds {f : Fetch} (h : f.Holds) : f.outcome? = none := by
  cases f with
  | returned outcome => exact h.elim
  | _ => rfl

theorem Matches.silent {next : Threads} {op : Op} (h : next.Abstracts r)
    (hreading : next.caller.reading? = s.caller.reading?) : Matches s r op (none, next) [] := by
  constructor
  · exact h
  · rfl
  · change next.caller.reading?.toList.Sublist _
    rw [hreading]
    exact List.sublist_append_left _ _

theorem Matches.call {op : Op} {timeNow : ℤ} {fetched : Outcome} {next : Threads}
    {result : Except GetOffsetError ℤ} {r' : Refresh}
    (hget : r.getOffset timeNow fetched = (result, r')) (h : next.Abstracts r')
    (hreading : s.caller.reading? = some timeNow) (hidle : next.caller = .idle) :
    Matches s r op (some result, next) [.getOffset timeNow fetched] := by
  have hstep : r.step (.getOffset timeNow fetched) = (some result, r') := by
    rw [Refresh.step, hget]
    rfl
  constructor
  · rw [Mealy.state_cons, hstep]
    exact h
  · rw [Mealy.outputs_cons, hstep]
    rfl
  · rw [hidle, hreading]
    exact List.sublist_append_left _ _

/-- The refresh ends when its fetch returns. -/
theorem Abstracts.stepRefresh (h : s.Abstracts r) :
    ∃ as, Matches s r .refresh (none, s.stepRefresh sort) as := by
  unfold Threads.stepRefresh
  split
  · exact ⟨[], .silent h rfl⟩
  · rename_i task htask
    obtain ⟨ended, htasks, hfuture⟩ := h.futures.busy task htask
    have hsame {f : Fetch} (hf : f.outcome? = task.phase.outcome?) :
        Futures (some { task with phase := f }) r := by
      refine ⟨fun hn => absurd hn (Option.some_ne_none _), fun t ht => ?_⟩
      obtain rfl := Option.some.inj ht
      exact ⟨ended, htasks.trans (by rw [hf]), hfuture⟩
    rcases fetch_cases sort s .refresh task.env task.phase with
      ⟨hphase, -, he⟩ | ⟨-, -, he⟩ | ⟨hholds, f, clock, -, ⟨hf, he⟩ | ⟨hf, hne, he⟩⟩ <;> rw [he]
    · exact ⟨[], .silent ⟨hsame (by rw [hphase]; rfl), h.values⟩ rfl⟩
    · exact ⟨[], .silent ⟨hsame rfl, h.values⟩ rfl⟩
    · have hnone := (outcome?_of_holds hf).trans (outcome?_of_holds hholds).symm
      exact ⟨[], .silent ⟨hsame hnone, h.values⟩ rfl⟩
    · obtain ⟨outcome, rfl⟩ : ∃ outcome, f = .returned outcome := by
        by_contra! hno
        exact hf (Fetch.holds_iff.mpr ⟨hne, hno⟩)
      rw [outcome?_of_holds hholds] at htasks
      have hstep : r.step (.complete ended.length outcome) =
          (none, { r with tasks := ended ++ [some outcome] }) := by
        simp [Refresh.step, Refresh.complete, htasks]
      refine ⟨[.complete ended.length outcome], ?_, ?_, List.sublist_append_left _ _⟩
      · rw [Mealy.state_cons, hstep]
        refine ⟨⟨fun hn => absurd hn (Option.some_ne_none _), fun t ht => ?_⟩, h.values⟩
        obtain rfl := Option.some.inj ht
        exact ⟨ended, rfl, hfuture⟩
      · rw [Mealy.outputs_cons, hstep]
        rfl

theorem Abstracts.stepCaller (hc : s.Consistent) (h : s.Abstracts r) (env : Env) :
    ∃ as, Matches s r (.caller env) (s.stepCaller sort env) as := by
  have hvalues := h.values
  fun_cases Threads.stepCaller sort s env with
  | case1 => exact ⟨[], .silent h rfl⟩
  | case2 timeNow hcaller howner =>
    rw [hcaller] at hvalues
    exact ⟨[], .silent ⟨h.futures, hvalues⟩ (by rw [hcaller]; rfl)⟩
  | case3 => exact ⟨[], .silent h rfl⟩
  | case4 timeNow hcaller hstate =>
    rw [hcaller] at hvalues
    exact ⟨[], .silent ⟨h.futures, hvalues⟩ (by rw [hcaller]; rfl)⟩
  | case5 timeNow hcaller state hstate =>
    rw [hcaller] at hvalues
    exact ⟨[], .silent ⟨h.futures, Or.inl hvalues⟩ (by rw [hcaller]; rfl)⟩
  | case6 timeNow env' state hcaller =>
    rw [hcaller] at hvalues
    have hnone := hvalues.1.trans (hc.fetches (by rw [hcaller]; trivial))
    exact ⟨[], .silent ⟨h.futures, hnone⟩ (by rw [hcaller]; rfl)⟩
  | case7 timeNow env' e hcaller =>
    rw [hcaller] at hvalues
    have hnone := hvalues.1.trans (hc.fetches (by rw [hcaller]; trivial))
    exact ⟨_, .call (Refresh.getOffset_of_none hnone timeNow (.error e)) ⟨h.futures, hvalues⟩
      (by rw [hcaller]; rfl) rfl⟩
  | case8 timeNow env' phase hok herror hcaller phase' s' hfetch =>
    rw [hcaller] at hvalues
    refine ⟨[], .silent ?_ (by rw [hcaller]; rfl)⟩
    rcases fetch_cases sort s .caller env' phase with
      ⟨-, -, he⟩ | ⟨-, -, he⟩ | ⟨-, f, clock, -, ⟨-, he⟩ | ⟨-, -, he⟩⟩ <;>
      obtain ⟨rfl, rfl⟩ := Prod.mk.inj (hfetch.symm.trans he) <;>
      exact ⟨h.futures, hvalues⟩
  | case9 timeNow hcaller howner =>
    rw [hcaller] at hvalues
    exact ⟨[], .silent ⟨h.futures, Or.inr ⟨hvalues, rfl⟩⟩ (by rw [hcaller]; rfl)⟩
  | case10 => exact ⟨[], .silent h rfl⟩
  | case11 timeNow hcaller s' state hstate =>
    rw [hcaller] at hvalues
    have hreading : s.caller.reading? = some timeNow := by rw [hcaller]; rfl
    rcases hvalues with hvalues | ⟨hnone, hlast⟩
    · obtain ⟨hfutures, hvalues'⟩ := h.futures.poll hvalues timeNow env
      have hne : r.state ≠ none := by
        rw [hvalues.1]
        exact hc.polls (by rw [hcaller]; trivial)
      obtain ⟨state', hstate', hget⟩ :=
        Refresh.getOffset_of_ne_none hne timeNow (.error .downloadFailed)
      obtain rfl := Option.some.inj (hstate'.symm.trans (hvalues'.1.trans hstate))
      exact ⟨_, .call hget ⟨hfutures, hvalues'⟩ hreading rfl⟩
    · have hpoll : s' = s := by
        change s.poll timeNow env = s
        rw [Threads.poll, if_neg]
        rw [hlast, hours]
        omega
      have hget := Refresh.getOffset_of_none hnone timeNow (.ok state)
      refine ⟨_, .call hget ?_ hreading rfl⟩
      rw [hpoll] at hstate ⊢
      exact ⟨⟨h.futures.idle, h.futures.busy⟩, hstate.symm, hlast.symm⟩
  | case12 timeNow hcaller s' hstate =>
    have hbefore := (poll_frame s timeNow env).2.2.2.1 hstate
    exact absurd hbefore (hc.polls (by rw [hcaller]; trivial))

theorem Abstracts.step (hc : s.Consistent) (h : s.Abstracts r) (op : Op) :
    ∃ as, Matches s r op (s.step sort op) as := by
  cases op with
  | call timeNow =>
    unfold Threads.step
    dsimp only
    split
    · rename_i hcaller
      have hvalues := h.values
      rw [hcaller] at hvalues
      refine ⟨[], ⟨h.futures, hvalues⟩, rfl, ?_⟩
      rw [hcaller]
      exact List.Sublist.refl _
    · exact ⟨[], .silent h rfl⟩
  | caller env => exact h.stepCaller hc env
  | refresh => exact h.stepRefresh

theorem abstracts_new (clock : ClockTAI) : ({ clock } : Threads).Abstracts {} :=
  ⟨⟨fun _ => rfl, fun _ h => (nomatch h)⟩, rfl, rfl⟩

end Lemmas

/-- What relates the steps of the threads to the actions without them. -/
structure Follows (sort : List Bulletin → List Bulletin) (clock : ClockTAI) (ops : List Op)
    (as : List Action) : Prop where
  consistent : (Mealy.state (step sort) { clock } ops).Consistent
  abstracts : (Mealy.state (step sort) { clock } ops).Abstracts (Mealy.state Refresh.step {} as)
  calls : (readings as ++
    (Mealy.state (step sort) { clock } ops).caller.reading?.toList).Sublist
      (ops.filterMap Op.reading?)

theorem Follows.concat {sort : List Bulletin → List Bulletin} {clock : ClockTAI} {ops : List Op}
    {as : List Action} (h : Follows sort clock ops as) (op : Op) :
    ∃ as', Follows sort clock (ops ++ [op]) (as ++ as') ∧
      ((Mealy.state (step sort) { clock } ops).step sort op).1.toList =
        (Mealy.outputs Refresh.step (Mealy.state Refresh.step {} as) as').flatMap
          Option.toList := by
  obtain ⟨as', hm⟩ := h.abstracts.step h.consistent op
  refine ⟨as', ⟨?_, ?_, ?_⟩, hm.outputs⟩
  · rw [Mealy.state_append]
    exact h.consistent.step op
  · rw [Mealy.state_append, Mealy.state_append]
    exact hm.abstracts
  · have hop : [op].filterMap Op.reading? = op.reading?.toList := by
      cases op <;> rfl
    rw [readings_append, Mealy.state_append, List.filterMap_append, hop, List.append_assoc]
    apply (hm.calls.append_left (readings as)).trans
    rw [← List.append_assoc]
    exact h.calls.append_right _

theorem exists_refresh_run (sort : List Bulletin → List Bulletin) (clock : ClockTAI)
    (ops : List Op) :
    ∃ as, Follows sort clock ops as ∧
      (Mealy.outputs (step sort) { clock } ops).flatMap Option.toList =
        (Mealy.outputs Refresh.step {} as).flatMap Option.toList :=
  Mealy.exists_matching ⟨consistent_new clock, abstracts_new clock, List.Sublist.refl _⟩
    (fun _ _ op h => h.concat op) ops

theorem state_eq_lastObtained (sort : List Bulletin → List Bulletin) (clock : ClockTAI)
    {ops : List Op} (hord : (ops.filterMap Op.reading?).Pairwise (· ≤ ·))
    (hidle : (Mealy.state (step sort) { clock } ops).caller = .idle)
    (hfuture : (Mealy.state (step sort) { clock } ops).offsetFuture = none) :
    ∃ as, Follows sort clock ops as ∧
      (Mealy.state (step sort) { clock } ops).state = Refresh.lastObtained {} none as := by
  obtain ⟨as, h, -⟩ := exists_refresh_run sort clock ops
  refine ⟨as, h, ?_⟩
  have hreadings := (List.sublist_append_left _ _).trans h.calls
  have hconsistent := Refresh.consistent_state as (hord.sublist hreadings)
  have hvalues := h.abstracts.values
  rw [hidle] at hvalues
  rw [← hvalues.1]
  exact (hconsistent.idle (h.abstracts.futures.idle hfuture)).1

end Threads

end SourceCompanion.ClockTAI
