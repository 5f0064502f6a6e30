import SourceCompanion.AVTInput.Assembled

/-! # Resynchronisation

When the five parts of a superframe are popped one after the other, the assembly hands them out
as a superframe, unless it is in the middle of another one. Then the first of the parts resets
the alignment and is lost.
-/

namespace SourceCompanion.AVTInput

/-- The next parts have the indexes of a superframe. -/
def CompleteNext (es : List Event) : Prop :=
  ∃ k : ℤ, ((popped es).take 5).map Prod.fst =
    (List.range 5).map fun j : ℕ => (5 * k + j) % maxQueueSize

theorem CompleteNext.length {es : List Event} (h : CompleteNext es) :
    ((popped es).take 5).length = 5 := by
  obtain ⟨k, hk⟩ := h
  rw [← List.length_map Prod.fst, hk]
  simp

theorem CompleteNext.place {es : List Event} (h : CompleteNext es) (j : ℕ)
    (p : ℤ × OrderedQueueData) (hp : ((popped es).take 5)[j]? = some p) : p.1 % 5 = j := by
  obtain ⟨k, hk⟩ := h
  have hfst := congrArg (·[j]?) hk
  simp only [List.getElem?_map, hp, Option.map_some] at hfst
  have hj : j < 5 := by
    have hlt := (List.getElem?_eq_some_iff.mp hp).1
    rwa [CompleteNext.length ⟨k, hk⟩] at hlt
  rw [List.getElem?_range hj, Option.map_some, Option.some.injEq] at hfst
  rw [hfst]
  simp only [maxQueueSize]
  omega

namespace Traced

variable {frameSize : ℕ} {t : Traced} {index : ℤ} {queueData : OrderedQueueData}

/-- The assembly can start a superframe with the next part. -/
def Fresh (t : Traced) : Prop :=
  t.assembly.frameAligned = false ∨ t.assembly.nbFrames = 0

instance (t : Traced) : Decidable (Fresh t) :=
  inferInstanceAs (Decidable (t.assembly.frameAligned = false ∨ t.assembly.nbFrames = 0))

/-- Some parts that are next are handed out together with those of the current superframe. -/
def Collects (t : Traced) (es : List Event) (want : List (ℤ × OrderedQueueData)) : Prop :=
  ∃ (j : ℕ) (f : Superframe), (Mealy.outputs step t es)[j]? = some (some f) ∧
    popped (es.take j) = want ∧ f.parts = t.parts ++ want

theorem Collects.finish {es : List Event} {want : List (ℤ × OrderedQueueData)} {bufSize : ℕ}
    (h : Collects t es want) (hstep : t.step (.finish bufSize) = (none, t)) :
    Collects t (.finish bufSize :: es) want := by
  obtain ⟨j, f, hout, htake, hparts⟩ := h
  refine ⟨j + 1, f, ?_, htake, hparts⟩
  rw [Mealy.outputs_cons, hstep]
  exact hout

theorem Collects.part {es : List Event} {want : List (ℤ × OrderedQueueData)}
    (h : Collects (t.take index queueData) es want)
    (hparts : (t.take index queueData).parts = t.parts ++ [(index, queueData)]) :
    Collects t (.part index queueData :: es) ((index, queueData) :: want) := by
  obtain ⟨j, f, hout, htake, hf⟩ := h
  refine ⟨j + 1, f, hout, ?_, ?_⟩
  · rw [List.take_succ_cons, ← List.singleton_append, popped_append, htake, popped_part,
      List.singleton_append]
  · rw [hf, hparts, List.append_assoc, List.singleton_append]

/-- Once aligned, the assembly collects the parts that are at their places, and hands them out
at the end of the call that popped the fifth. -/
theorem Holds.collects (h : Holds frameSize t) {es : List Event}
    {want : List (ℤ × OrderedQueueData)} (haligned : t.assembly.frameAligned = true)
    (hwell : Mealy.Along Traced.step (WellFormed frameSize) t es)
    (hroom : ∀ e ∈ es, Roomy frameSize e)
    (hfinal : (Mealy.state Traced.step t es).assembly.nbFrames ≤ 4)
    (hwant : (popped es).take (5 - t.assembly.nbFrames) = want)
    (hlen : want.length = 5 - t.assembly.nbFrames)
    (hplace : ∀ (j : ℕ) (p : ℤ × OrderedQueueData), want[j]? = some p →
      p.1 % 5 = t.assembly.nbFrames + j) :
    Collects t es want := by
  induction es generalizing t want with
  | nil =>
    simp only [Mealy.state_nil] at hfinal
    simp only [popped_nil, List.take_nil] at hwant
    subst hwant
    simp only [List.length_nil] at hlen
    omega
  | cons e es ih =>
    obtain ⟨hw, hwell⟩ := hwell
    have hroom' : ∀ e' ∈ es, Roomy frameSize e' := fun e' he' =>
      hroom e' (List.mem_cons_of_mem _ he')
    cases e with
    | finish bufSize =>
      by_cases hdone : t.assembly.nbFrames = 5
      · obtain rfl : want = [] := List.length_eq_zero_iff.mp (by omega)
        refine ⟨0, { t with
          bytes := t.assembly.currentFrame.take t.assembly.currentFrameSize
          timestamp := t.assembly.frameZeroTimestamp }, ?_, rfl, (List.append_nil _).symm⟩
        rw [Mealy.outputs_cons, h.finish_of_roomy (hroom _ List.mem_cons_self) hdone]
        rfl
      · rcases t.finish_cases bufSize with he | ⟨hdone', -⟩
        · simp only [Mealy.state_cons, he] at hwell hfinal
          exact (ih h haligned hwell hroom' hfinal hwant hlen hplace).finish he
        · exact absurd hdone' hdone
    | part index queueData =>
      have hlt : t.assembly.nbFrames < 5 := hw.1
      have h₀ : 0 ≤ index := hw.2.1
      have hsucc : 5 - t.assembly.nbFrames = (5 - (t.assembly.nbFrames + 1)) + 1 := by omega
      have hpop : popped (.part index queueData :: es) = (index, queueData) :: popped es := rfl
      rw [hpop, hsucc, List.take_succ_cons] at hwant
      subst hwant
      have hindex : index % 5 = t.assembly.nbFrames := by
        simpa using hplace 0 (index, queueData) rfl
      rcases t.take_cases index queueData with ⟨ha, -, -⟩ | ⟨ha, -, -⟩ | ⟨-, -, he⟩ | ⟨-, hn, -⟩
      · simp [haligned] at ha
      · simp [haligned] at ha
      · have hnb : (t.take index queueData).assembly.nbFrames = t.assembly.nbFrames + 1 := by
          rw [he]
          rfl
        refine (ih (h.take hw) (by rw [he]; exact haligned) hwell hroom' hfinal ?_ ?_ ?_).part ?_
        · rw [hnb]
        · simp only [List.length_cons] at hlen
          omega
        · intro j p hp
          have := hplace (j + 1) p hp
          rw [hnb]
          push_cast at this ⊢
          omega
        · rw [he]
      · exact absurd (Int.tmod_eq_emod_of_nonneg h₀ ▸ hindex) hn

theorem Fresh.take (hf : Fresh t) (h : Holds frameSize t) (hindex : index.tmod 5 = 0)
    (queueData : OrderedQueueData) :
    (t.take index queueData).assembly.frameAligned = true ∧
      (t.take index queueData).assembly.nbFrames = 1 ∧
      (t.take index queueData).parts = [(index, queueData)] ∧ t.parts = [] := by
  have hn : t.assembly.nbFrames = 0 := by
    rcases hf with ha | hn
    · exact h.unaligned ha
    · exact hn
  have hnil := h.parts_eq_nil hn
  rcases t.take_cases index queueData with ⟨-, hi, -⟩ | ⟨-, -, he⟩ | ⟨ha, -, he⟩ | ⟨-, hi, -⟩
  · exact absurd hindex hi
  · rw [he]
    exact ⟨rfl, congrArg (· + 1) hn, rfl, hnil⟩
  · rw [he]
    exact ⟨ha, congrArg (· + 1) hn, by rw [hnil]; rfl, hnil⟩
  · exact absurd (by rw [hn, hindex]; rfl) hi

theorem Fresh.collects (hf : Fresh t) (h : Holds frameSize t) {es : List Event}
    (hindex : index.tmod 5 = 0) (hcomplete : CompleteNext (.part index queueData :: es))
    (hwell : Mealy.Along Traced.step (WellFormed frameSize) t (.part index queueData :: es))
    (hroom : ∀ e ∈ es, Roomy frameSize e)
    (hfinal : (Mealy.state Traced.step t (.part index queueData :: es)).assembly.nbFrames ≤ 4) :
    t.parts = [] ∧ Collects t (.part index queueData :: es)
      ((popped (.part index queueData :: es)).take 5) := by
  have hlength := hcomplete.length
  have hplace := hcomplete.place
  have htake : (popped (.part index queueData :: es)).take 5 =
      (index, queueData) :: (popped es).take 4 := rfl
  rw [htake] at hlength hplace ⊢
  obtain ⟨haligned, hone, hparts, hnil⟩ := hf.take h hindex queueData
  refine ⟨hnil, Collects.part ?_ (by rw [hparts, hnil]; rfl)⟩
  refine (h.take hwell.1).collects haligned hwell.2 hroom hfinal ?_ ?_ ?_
  · rw [hone]
  · rw [hone]
    simpa using hlength
  · intro j p hp
    have := hplace (j + 1) p hp
    rw [hone]
    push_cast at this ⊢
    omega

theorem verdict_of_not_fresh (hf : ¬ Fresh t) (hindex : index.tmod 5 = 0) :
    t.assembly.verdict index = .reset := by
  unfold Fresh at hf
  push Not at hf
  obtain ⟨ha, hn⟩ := hf
  have hne : ¬ index.tmod 5 = t.assembly.nbFrames := by
    rw [hindex]
    exact fun hc => hn (by exact_mod_cast hc.symm)
  simp [Assembly.verdict, ha, hne]

end Traced

open Traced

/-- The next five parts are returned as a superframe in a run of calls. -/
def ReturnedNext (s : AVTInput) (calls : List Call) (i : ℕ) : Prop :=
  ∃ (j : ℕ) (f : Superframe),
    (Mealy.outputs Traced.step ⟨s.assembly, [], 0, 0, 0⟩ (s.events calls))[j]? = some (some f) ∧
    (f.bytes, f.timestamp) ∈ (Mealy.outputs getNextFrame s calls).reduceOption ∧
    f.parts = (popped ((s.events calls).drop i)).take 5 ∧
    popped ((s.events calls).take j) = popped ((s.events calls).take i) ++ f.parts ∧
    f.bytes = f.parts.flatMap fun p => p.2.buf

section Runs

variable {bitrate jitterBufferSize : ℕ} {s : AVTInput} {calls : List Call} {i : ℕ} {index : ℤ}
  {queueData : OrderedQueueData}

theorem popped_drop_part {es : List Event} (hi : es[i]? = some (.part index queueData)) :
    es.drop i = .part index queueData :: es.drop (i + 1) ∧
      popped (es.take (i + 1)) = popped (es.take i) ++ [(index, queueData)] := by
  obtain ⟨hlt, hget⟩ := List.getElem?_eq_some_iff.mp hi
  constructor
  · rw [List.drop_eq_getElem_cons hlt, hget]
  · rw [List.take_succ_eq_append_getElem hlt, hget, popped_append, popped_part]

theorem not_returnedNext (hs : setDabPlusParameters bitrate jitterBufferSize = some s)
    (hi : (s.events calls)[i]? = some (.part index queueData))
    (hcomplete : CompleteNext ((s.events calls).drop i))
    (hreset : (Mealy.state Traced.step ⟨s.assembly, [], 0, 0, 0⟩
      ((s.events calls).take i)).assembly.verdict index = .reset) : ¬ ReturnedNext s calls i := by
  rintro ⟨j, f, hout, -, hparts, hpopped, -⟩
  have hsucc := (popped_drop_part hi).2
  have hlen : f.parts.length = 5 := hparts ▸ hcomplete.length
  have hij : i < j := by
    by_contra hle
    have hsub := ((List.take_prefix_take_left (l := s.events calls)
      (Nat.le_of_not_lt hle)).filterMap Event.popped?).length_le
    change (popped _).length ≤ (popped _).length at hsub
    rw [hpopped, List.length_append] at hsub
    omega
  obtain ⟨older, holder, hbound⟩ := (madeOf_of_output hs hout).popped_eq
  have hat : ((s.events calls).take j)[i]? = some (.part index queueData) := by
    rw [List.getElem?_take_of_lt hij, hi]
  have hprefix := hbound i _ hat (by rwa [List.take_take, Nat.min_eq_left hij.le, Boundary])
  obtain rfl := List.append_cancel_right (holder.symm.trans hpopped)
  rw [List.take_take, Nat.min_eq_left hij, hsucc] at hprefix
  have := hprefix.length_le
  simp at this

theorem CompleteNext.index_tmod (hcomplete : CompleteNext ((s.events calls).drop i))
    (hi : (s.events calls)[i]? = some (.part index queueData)) : index.tmod 5 = 0 := by
  have hfirst : ((popped ((s.events calls).drop i)).take 5)[0]? = some (index, queueData) := by
    rw [(popped_drop_part hi).1]
    rfl
  have hmod := hcomplete.place 0 _ hfirst
  exact Int.tmod_eq_zero_of_dvd (Int.dvd_of_emod_eq_zero hmod)

theorem returnedNext_of_fresh (hs : setDabPlusParameters bitrate jitterBufferSize = some s)
    (hbuf : ∀ call ∈ calls, 15 * bitrate ≤ call.bufSize)
    (hi : (s.events calls)[i]? = some (.part index queueData))
    (hcomplete : CompleteNext ((s.events calls).drop i))
    (hfresh : Traced.Fresh (Mealy.state Traced.step ⟨s.assembly, [], 0, 0, 0⟩
      ((s.events calls).take i))) : ReturnedNext s calls i := by
  have hindex := hcomplete.index_tmod hi
  have hdrop := (popped_drop_part hi).1
  have hstocked := (stocked_of_setDabPlusParameters hs).1
  rw [(dab24msFrameSize_eq hs).1] at hstocked
  have hwell := (wellFormed_events (t := ⟨s.assembly, [], 0, 0, 0⟩) calls hstocked rfl).drop i
  have hfinal := (nbFrames_le hs calls hbuf).1
  rw [← (state_events calls (s := s) (t := ⟨s.assembly, [], 0, 0, 0⟩) rfl).1,
    ← List.take_append_drop i (s.events calls), Mealy.state_append] at hfinal
  have hroom : ∀ e ∈ (s.events calls).drop (i + 1), Roomy (bitrate * 3) e := fun e he =>
    roomy_events hbuf e (List.mem_of_mem_drop he)
  rw [hdrop] at hcomplete hwell hfinal
  obtain ⟨hnil, j, f, hout, htaken, hfparts⟩ :=
    hfresh.collects (sound_events hs calls i).holds hindex hcomplete hwell hroom hfinal
  rw [← hdrop] at hout htaken hfparts
  rw [Mealy.outputs_drop] at hout
  rw [hnil, List.nil_append] at hfparts
  refine ⟨i + j, f, hout, ?_, hfparts, ?_, (madeOf_of_output hs hout).bytes_eq⟩
  · rw [← (state_events calls (s := s) (t := ⟨s.assembly, [], 0, 0, 0⟩) rfl).2]
    apply List.mem_map_of_mem
    rw [List.reduceOption_mem_iff]
    exact List.mem_of_getElem? hout
  · rw [List.take_add, popped_append, htaken, hfparts]

/-- In a run of calls with large buffers, five parts with the indexes of a superframe are
returned as a superframe exactly when the first of them is popped while the assembly is not in
the middle of another superframe. -/
theorem returnedNext_iff (hs : setDabPlusParameters bitrate jitterBufferSize = some s)
    (hbuf : ∀ call ∈ calls, 15 * bitrate ≤ call.bufSize)
    (hi : (s.events calls)[i]? = some (.part index queueData))
    (hcomplete : CompleteNext ((s.events calls).drop i)) :
    ReturnedNext s calls i ↔
      Traced.Fresh
        (Mealy.state Traced.step ⟨s.assembly, [], 0, 0, 0⟩ ((s.events calls).take i)) := by
  constructor
  · intro hret
    by_contra hfresh
    exact not_returnedNext hs hi hcomplete
      (verdict_of_not_fresh hfresh (hcomplete.index_tmod hi)) hret
  · exact returnedNext_of_fresh hs hbuf hi hcomplete

/-- After two parts of the first superframe the whole second one is popped. Its first part resets
the alignment, and nothing is returned. -/
theorem reset_loses_superframe :
    setDabPlusParameters 8 5 = some smallInput ∧
      (∀ call ∈ [callWith [0, 1], callWith [5, 6, 7, 8, 9]], 15 * 8 ≤ call.bufSize) ∧
      (popped (smallInput.events [callWith [0, 1], callWith [5, 6, 7, 8, 9]])).map Prod.fst =
        [0, 1, 5, 6, 7, 8, 9] ∧
      (smallInput.events [callWith [0, 1], callWith [5, 6, 7, 8, 9]])[3]? =
        some (.part 5 ⟨List.replicate 24 5, Assembly.partDuration * 5⟩) ∧
      CompleteNext ((smallInput.events [callWith [0, 1], callWith [5, 6, 7, 8, 9]]).drop 3) ∧
      ¬ ReturnedNext smallInput [callWith [0, 1], callWith [5, 6, 7, 8, 9]] 3 := by
  refine ⟨rfl, by decide, by decide, by decide, ⟨1, by decide⟩, ?_⟩
  rintro ⟨j, f, -, hmem, -⟩
  have hnone : (Mealy.outputs getNextFrame smallInput
      [callWith [0, 1], callWith [5, 6, 7, 8, 9]]).reduceOption = [] := by decide
  rw [hnone] at hmem
  cases hmem

theorem returnedNext_second :
    ReturnedNext smallInput [callWith [0, 1, 2, 3, 4], callWith [5, 6, 7, 8, 9]] 6 := by
  have hi : (smallInput.events [callWith [0, 1, 2, 3, 4], callWith [5, 6, 7, 8, 9]])[6]? =
      some (.part 5 ⟨List.replicate 24 5, Assembly.partDuration * 5⟩) := by decide
  exact (returnedNext_iff setDabPlusParameters_smallInput (by decide) hi ⟨1, by decide⟩).mpr
    (by decide)

end Runs

end SourceCompanion.AVTInput
