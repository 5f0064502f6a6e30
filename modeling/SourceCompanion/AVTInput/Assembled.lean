import SourceCompanion.AVTInput.Superframe

/-! # Where the parts of a superframe come from

Whatever was received before, a superframe is made of the last five parts that were popped, and
nothing was reset or handed out between them. The sizes that are computed in three places agree,
so every part is copied into the buffer and every superframe passes the checks of the main loop.
-/

namespace SourceCompanion.AVTInput

namespace Event

def popped? : Event → Option (ℤ × OrderedQueueData)
  | .part index queueData => some (index, queueData)
  | .finish _ => none

end Event

def popped (es : List Event) : List (ℤ × OrderedQueueData) :=
  es.filterMap Event.popped?

/-- The main loop drops the Reed-Solomon data of a superframe before it decodes it. -/
def decodedLength (numOutBytes : ℕ) : Except String ℕ :=
  if numOutBytes % 120 ≠ 0 then .error ("Invalid data length " ++ toString numOutBytes)
  else .ok (numOutBytes / 120 * 110)

/-- The main loop splits a superframe into five blocks. -/
def blocksize (numOutBytes : ℕ) : Except String ℕ :=
  if numOutBytes % 5 ≠ 0 then .error "Superframe size not multiple of 5"
  else .ok (numOutBytes / 5)

@[simp] theorem popped_nil : popped [] = [] := rfl

@[simp] theorem popped_append (es es' : List Event) :
    popped (es ++ es') = popped es ++ popped es' :=
  List.filterMap_append

@[simp] theorem popped_part (index : ℤ) (queueData : OrderedQueueData) :
    popped [.part index queueData] = [(index, queueData)] := rfl

theorem popped_finish (bufSize : ℕ) : popped [.finish bufSize] = [] := rfl

namespace Traced

variable {frameSize : ℕ} {t : Traced} {index : ℤ} {queueData : OrderedQueueData}
  {es : List Event} {e : Event} {s : Traced}

/-- A part that is copied fits behind what the buffer holds. -/
def Inside (t : Traced) : Event → Prop
  | .part index queueData =>
    t.assembly.verdict index = .started ∨ t.assembly.verdict index = .accepted →
      t.assembly.currentFrameSize + queueData.buf.length ≤ t.assembly.currentFrame.length
  | .finish _ => True

/-- A reset of the alignment, or the return of a superframe. -/
def Boundary (t : Traced) : Event → Prop
  | .part index _ => t.assembly.verdict index = .reset
  | .finish bufSize => (t.step (.finish bufSize)).1.isSome = true

/-- The buffer given to a call holds a superframe. -/
def Roomy (frameSize : ℕ) : Event → Prop
  | .part _ _ => True
  | .finish bufSize => 5 * frameSize ≤ bufSize

theorem Holds.inside (h : Holds frameSize t) (hw : WellFormed frameSize t e) : Inside t e := by
  cases e with
  | part index queueData =>
    obtain ⟨hlt, -, -, hlen⟩ := hw
    intro _
    rw [h.size, h.buffer, hlen, ← Nat.succ_mul]
    exact Nat.mul_le_mul_right _ hlt
  | finish bufSize => trivial

theorem Holds.finish_of_roomy (h : Holds frameSize t) {bufSize : ℕ}
    (hroom : Roomy frameSize (.finish bufSize)) (hdone : t.assembly.nbFrames = 5) :
    t.step (.finish bufSize) = (some { t with
        bytes := t.assembly.currentFrame.take t.assembly.currentFrameSize
        timestamp := t.assembly.frameZeroTimestamp },
      { t with
        assembly := { t.assembly with currentFrameSize := 0, nbFrames := 0 }
        parts := [] }) := by
  have hfit : t.assembly.currentFrameSize ≤ bufSize := by
    rw [h.size, hdone]
    exact hroom
  unfold Traced.step Assembly.finish
  simp only [if_pos (And.intro hdone hfit)]

theorem Holds.nbFrames_finish (h : Holds frameSize t) {bufSize : ℕ}
    (hroom : Roomy frameSize (.finish bufSize)) :
    (t.step (.finish bufSize)).2.assembly.nbFrames ≤ 4 := by
  have hle := h.count_le
  by_cases hdone : t.assembly.nbFrames = 5
  · rw [h.finish_of_roomy hroom hdone]
    exact Nat.zero_le _
  · rcases t.finish_cases bufSize with he | ⟨hdone', -⟩
    · rw [he]
      dsimp only
      omega
    · exact absurd hdone' hdone

/-- The parts of the current superframe are the last ones popped, none of them was there at the
last boundary, and their indexes are congruent to their places. -/
structure Latest (s : Traced) (es : List Event) (t : Traced) : Prop where
  popped_eq : ∃ older, popped es = older ++ t.parts ∧
    ∀ m e, es[m]? = some e → Boundary (Mealy.state Traced.step s (es.take m)) e →
      popped (es.take (m + 1)) <+: older
  place : ∀ (j : ℕ) (p : ℤ × OrderedQueueData), t.parts[j]? = some p → p.1 % 5 = j

/-- A step that keeps the parts, or appends the popped one, keeps the older parts. -/
theorem Latest.extend (h : Latest s es t) {t' : Traced}
    (hparts : t'.parts = t.parts ++ popped [e])
    (hplace : ∀ p ∈ popped [e], p.1 % 5 = (t.parts.length : ℤ))
    (hb : ¬ Boundary (Mealy.state Traced.step s es) e) : Latest s (es ++ [e]) t' := by
  obtain ⟨older, holder, hbound⟩ := h.popped_eq
  refine ⟨⟨older, ?_, ?_⟩, ?_⟩
  · rw [popped_append, holder, hparts, List.append_assoc]
  · intro m e' he' hb'
    rcases Nat.lt_or_ge m es.length with hm | hm
    · rw [List.getElem?_append_left hm] at he'
      rw [List.take_append_of_le_length hm.le] at hb'
      rw [List.take_append_of_le_length hm]
      exact hbound m e' he' hb'
    · obtain rfl : m = es.length := by
        have := (List.getElem?_eq_some_iff.mp he').1
        simp only [List.length_append, List.length_singleton] at this
        omega
      simp only [List.getElem?_concat_length, Option.some.injEq] at he'
      subst he'
      rw [List.take_left' rfl] at hb'
      exact absurd hb' hb
  · intro j p hp
    rw [hparts] at hp
    rcases Nat.lt_or_ge j t.parts.length with hj | hj
    · rw [List.getElem?_append_left hj] at hp
      exact h.place j p hp
    · rw [List.getElem?_append_right hj] at hp
      obtain ⟨hlt, hp⟩ := List.getElem?_eq_some_iff.mp hp
      have hone : (popped [e]).length ≤ 1 := List.length_filterMap_le _ _
      obtain rfl : j = t.parts.length := by omega
      exact hplace p (hp ▸ List.getElem_mem _)

theorem Latest.clear {t' : Traced} (hparts : t'.parts = []) : Latest s (es ++ [e]) t' := by
  refine ⟨⟨popped (es ++ [e]), by rw [hparts, List.append_nil], fun m e' _ _ => ?_⟩, ?_⟩
  · exact (List.take_prefix (m + 1) (es ++ [e])).filterMap _
  · intro j p hp
    rw [hparts] at hp
    cases hp

theorem Latest.take (h : Latest s es t) (hh : Holds frameSize t)
    (ht : t = Mealy.state Traced.step s es)
    (hw : WellFormed frameSize t (.part index queueData)) :
    Latest s (es ++ [.part index queueData]) (t.take index queueData) := by
  obtain ⟨-, h₀, -, -⟩ := hw
  have hmod : index.tmod 5 = index % 5 := Int.tmod_eq_emod_of_nonneg h₀
  rcases t.take_cases index queueData with ⟨ha, hi, he⟩ | ⟨ha, hi, he⟩ | ⟨ha, hi, he⟩ | ⟨ha, hi, he⟩
  · exact Latest.clear (by rw [he, hh.parts_eq_nil (hh.unaligned ha)])
  · have hnil := hh.parts_eq_nil (hh.unaligned ha)
    refine h.extend (by rw [he, hnil]; rfl) ?_ ?_
    · rw [hnil]
      simpa [hi] using hmod.symm
    · rw [← ht]
      simp [Boundary, Assembly.verdict, ha, hi]
  · refine h.extend (by rw [he]; rfl) ?_ ?_
    · simp [← hmod, hi, hh.count]
    · rw [← ht]
      simp [Boundary, Assembly.verdict, ha, hi]
  · exact Latest.clear (by rw [he])

theorem Latest.finish (h : Latest s es t) (ht : t = Mealy.state Traced.step s es)
    (bufSize : ℕ) : Latest s (es ++ [.finish bufSize]) (t.step (.finish bufSize)).2 := by
  rcases t.finish_cases bufSize with he | ⟨-, he⟩
  · refine h.extend (by rw [he, popped_finish, List.append_nil]) (by simp [popped_finish]) ?_
    rw [← ht, Boundary, he]
    simp
  · exact Latest.clear (by rw [he])

/-- What holds at every place of a run of well-formed events with large buffers. -/
structure Sound (frameSize : ℕ) (s : Traced) (es : List Event) (t : Traced) : Prop where
  holds : Holds frameSize t
  latest : Latest s es t
  state : t = Mealy.state Traced.step s es

theorem Sound.step (h : Sound frameSize s es t) (hw : WellFormed frameSize t e) :
    Sound frameSize s (es ++ [e]) (t.step e).2 := by
  refine ⟨h.holds.step hw, ?_, by rw [h.state]; simp⟩
  cases e with
  | part index queueData => exact h.latest.take h.holds h.state hw
  | finish bufSize => exact h.latest.finish h.state bufSize

end Traced

open Traced

/-- The source of a superframe that is handed out after some events: it is made of the last five
parts popped, after every boundary, and their indexes are congruent to their places. -/
structure Superframe.MadeOf (f : Superframe) (bitrate : ℕ) (s : Traced) (es : List Event) :
    Prop where
  length_bytes : f.bytes.length = 15 * bitrate
  bytes_eq : f.bytes = f.parts.flatMap fun p => p.2.buf
  length_parts : f.parts.length = 5
  place : ∀ (j : ℕ) (p : ℤ × OrderedQueueData), f.parts[j]? = some p → p.1 % 5 = j
  popped_eq : ∃ older, popped es = older ++ f.parts ∧
    ∀ m e, es[m]? = some e → Boundary (Mealy.state Traced.step s (es.take m)) e →
      popped (es.take (m + 1)) <+: older

theorem Traced.Sound.madeOf {bitrate : ℕ} {s t : Traced} {es : List Event}
    (h : Sound (bitrate * 3) s es t) (e : Event) :
    ∀ f ∈ (t.step e).1, f.MadeOf bitrate s es := by
  intro f hf
  have hlen := h.holds.length_of_step e f hf
  cases e with
  | part index queueData => cases hf
  | finish bufSize =>
    obtain ⟨hdone, hparts, hbytes⟩ := (h.holds.finish bufSize).2 f hf
    refine ⟨by omega, hbytes, by rw [hparts, h.holds.count, hdone], ?_, ?_⟩ <;> rw [hparts]
    · exact h.latest.place
    · exact h.latest.popped_eq

@[simp] theorem events_append (s : AVTInput) (calls calls' : List Call) :
    s.events (calls ++ calls') =
      s.events calls ++ (Mealy.state getNextFrame s calls).events calls' := by
  induction calls generalizing s with
  | nil => rfl
  | cons call calls ih => simp [events, ih]

section Runs

variable {bitrate jitterBufferSize : ℕ} {s : AVTInput} {calls : List Call}

theorem dab24msFrameSize_eq (hs : setDabPlusParameters bitrate jitterBufferSize = some s) :
    s.dab24msFrameSize = bitrate * 3 ∧ 8 ∣ bitrate := by
  obtain ⟨frameSize, hsize, rfl⟩ := Option.map_eq_some_iff.mp hs
  simp only [configuredFrameSize] at hsize
  split_ifs at hsize
  obtain rfl := Option.some.inj hsize
  exact ⟨rfl, by omega⟩

theorem sound_events (hs : setDabPlusParameters bitrate jitterBufferSize = some s)
    (calls : List Call) (i : ℕ) :
    Sound (bitrate * 3) ⟨s.assembly, [], 0, 0, 0⟩ ((s.events calls).take i)
      (Mealy.state Traced.step ⟨s.assembly, [], 0, 0, 0⟩ ((s.events calls).take i)) := by
  obtain ⟨hstocked, hassembly⟩ := stocked_of_setDabPlusParameters hs
  rw [(dab24msFrameSize_eq hs).1] at hstocked hassembly
  have hwell := wellFormed_events (t := ⟨s.assembly, [], 0, 0, 0⟩) calls hstocked rfl
  refine hwell.invariant_history (I := Sound (bitrate * 3) ⟨s.assembly, [], 0, 0, 0⟩) ?_
    (fun v e h he => h.step he) i
  exact ⟨holds_init hassembly, ⟨⟨[], rfl, by simp⟩, by simp⟩, rfl⟩

theorem roomy_events {s : AVTInput} (hbuf : ∀ call ∈ calls, 15 * bitrate ≤ call.bufSize) :
    ∀ e ∈ s.events calls, Roomy (bitrate * 3) e := by
  induction calls generalizing s with
  | nil => simp [events]
  | cons call calls ih =>
    intro e he
    rw [events, callEvents, List.mem_append, List.mem_append] at he
    rcases he with (he | he) | he
    · obtain ⟨p, -, rfl⟩ := List.mem_map.mp he
      trivial
    · obtain rfl := List.mem_singleton.mp he
      have := hbuf call List.mem_cons_self
      rw [Roomy]
      omega
    · exact ih (fun call' hc => hbuf call' (List.mem_cons_of_mem _ hc)) e he

theorem nbFrames_le (hs : setDabPlusParameters bitrate jitterBufferSize = some s)
    (calls : List Call) (hbuf : ∀ call ∈ calls, 15 * bitrate ≤ call.bufSize) :
    (Mealy.state getNextFrame s calls).assembly.nbFrames ≤ 4 ∧
      (Mealy.state getNextFrame s calls).assembly.currentFrameSize =
        (Mealy.state getNextFrame s calls).assembly.nbFrames * 3 * bitrate := by
  have hstate := (state_events calls (s := s) (t := ⟨s.assembly, [], 0, 0, 0⟩) rfl).1
  have hsound := sound_events hs calls (s.events calls).length
  rw [List.take_length] at hsound
  constructor
  · rcases List.eq_nil_or_concat calls with rfl | ⟨calls, call, rfl⟩
    · simp [(stocked_of_setDabPlusParameters hs).2]
    · rw [List.concat_eq_append] at *
      obtain ⟨parts, hlast⟩ : ∃ parts,
          s.events (calls ++ [call]) = parts ++ [.finish call.bufSize] := by
        simp only [events_append, events, callEvents, List.append_nil, ← List.append_assoc]
        exact ⟨_, rfl⟩
      have hbefore := sound_events hs (calls ++ [call]) ((s.events (calls ++ [call])).length - 1)
      have hroom := roomy_events (s := s) hbuf (.finish call.bufSize) (by rw [hlast]; simp)
      rw [← hstate]
      rw [hlast] at hbefore ⊢
      rw [List.length_append, List.length_singleton, Nat.add_sub_cancel, List.take_left' rfl]
        at hbefore
      rw [Mealy.state_append]
      exact hbefore.holds.nbFrames_finish hroom
  · rw [← hstate, hsound.holds.size, Nat.mul_assoc, Nat.mul_comm 3]

theorem madeOf_of_output (hs : setDabPlusParameters bitrate jitterBufferSize = some s)
    {calls : List Call} {i : ℕ} {f : Superframe}
    (hf : (Mealy.outputs Traced.step ⟨s.assembly, [], 0, 0, 0⟩ (s.events calls))[i]? =
      some (some f)) :
    f.MadeOf bitrate ⟨s.assembly, [], 0, 0, 0⟩ ((s.events calls).take i) := by
  rw [Mealy.outputs_getElem?] at hf
  obtain ⟨e, -, he⟩ := Option.map_eq_some_iff.mp hf
  exact (sound_events hs calls i).madeOf e f he

/-- In a run of calls with buffers for a superframe, every part is copied inside the buffer,
every superframe that is returned has the right size and passes the checks of the main loop, and
it is made of the last five parts popped, none of which is used again. -/
theorem assembled (hs : setDabPlusParameters bitrate jitterBufferSize = some s)
    (calls : List Call) (hbuf : ∀ call ∈ calls, 15 * bitrate ≤ call.bufSize) :
    (∀ n, (Mealy.state getNextFrame s (calls.take n)).assembly.nbFrames ≤ 4 ∧
      (Mealy.state getNextFrame s (calls.take n)).assembly.currentFrameSize =
        (Mealy.state getNextFrame s (calls.take n)).assembly.nbFrames * 3 * bitrate) ∧
    Mealy.Along Traced.step Inside ⟨s.assembly, [], 0, 0, 0⟩ (s.events calls) ∧
    (∀ r ∈ (Mealy.outputs getNextFrame s calls).reduceOption, r.1.length = 15 * bitrate ∧
      (∃ n, decodedLength r.1.length = .ok n) ∧ ∃ n, blocksize r.1.length = .ok n) ∧
    (s.superframes calls).map (fun f => (f.bytes, f.timestamp)) =
      (Mealy.outputs getNextFrame s calls).reduceOption ∧
    (∀ (i : ℕ) (f : Superframe),
      (Mealy.outputs Traced.step ⟨s.assembly, [], 0, 0, 0⟩ (s.events calls))[i]? = some (some f) →
        f.MadeOf bitrate ⟨s.assembly, [], 0, 0, 0⟩ ((s.events calls).take i)) ∧
    ∀ (i j : ℕ) (f g : Superframe), i < j →
      (Mealy.outputs Traced.step ⟨s.assembly, [], 0, 0, 0⟩ (s.events calls))[i]? = some (some f) →
      (Mealy.outputs Traced.step ⟨s.assembly, [], 0, 0, 0⟩ (s.events calls))[j]? = some (some g) →
        ∃ between, popped ((s.events calls).take j) =
          popped ((s.events calls).take i) ++ between ++ g.parts := by
  obtain ⟨hstocked, hassembly⟩ := stocked_of_setDabPlusParameters hs
  obtain ⟨hsize, hdvd⟩ := dab24msFrameSize_eq hs
  refine ⟨fun n => ?_, ?_, fun r hr => ?_, (state_events calls rfl).2,
    fun _ _ => madeOf_of_output hs, ?_⟩
  · exact nbFrames_le hs _ fun call hc => hbuf call (List.mem_of_mem_take hc)
  · exact (wellFormed_events calls hstocked rfl).of_invariant (holds_init hassembly)
      (fun t e h he => h.step he) fun t e h he => h.inside he
  · have hlength := length_of_returned hs calls r hr
    refine ⟨by omega, ⟨_, if_neg ?_⟩, ⟨_, if_neg ?_⟩⟩ <;> omega
  · intro i j f g hij hf hg
    obtain ⟨older, holder, hbound⟩ := (madeOf_of_output hs hg).popped_eq
    rw [Mealy.outputs_getElem?] at hf
    obtain ⟨e, he, hout⟩ := Option.map_eq_some_iff.mp hf
    have htake : ((s.events calls).take j)[i]? = some e := by
      rw [List.getElem?_take_of_lt hij, he]
    have hmin : ∀ k ≤ j, ((s.events calls).take j).take k = (s.events calls).take k := by
      intro k hk
      rw [List.take_take, Nat.min_eq_left hk]
    have hboundary : Boundary (Mealy.state Traced.step ⟨s.assembly, [], 0, 0, 0⟩
        (((s.events calls).take j).take i)) e := by
      rw [hmin i hij.le]
      cases e with
      | part index queueData => cases hout
      | finish bufSize =>
        rw [Boundary, hout]
        rfl
    have hprefix := hbound i e htake hboundary
    rw [hmin (i + 1) hij] at hprefix
    obtain ⟨between, rfl⟩ := ((List.take_prefix_take_left (l := s.events calls)
      (Nat.le_succ i)).filterMap Event.popped?).trans hprefix
    exact ⟨between, holder⟩

theorem assembled_reordered :
    Mealy.Along Traced.step Inside ⟨smallInput.assembly, [], 0, 0, 0⟩
        (smallInput.events [callWith [0, 2, 1], callWith [4, 3, 5]]) ∧
      (smallInput.superframes [callWith [0, 2, 1], callWith [4, 3, 5]]).map
          (fun f => (f.bytes, f.timestamp)) =
        (Mealy.outputs getNextFrame smallInput
          [callWith [0, 2, 1], callWith [4, 3, 5]]).reduceOption :=
  have h := assembled setDabPlusParameters_smallInput [callWith [0, 2, 1], callWith [4, 3, 5]]
    (by decide)
  ⟨h.2.1, h.2.2.2.1⟩

end Runs

end SourceCompanion.AVTInput
