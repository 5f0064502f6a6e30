import SourceCompanion.AVTInput.Superframe

/-! # The time base of the superframes

The time base is the capture time of the part that started the alignment period, and each
further part advances it by the duration of one part. It stays in step with the indexes
exactly as long as every part has the expected index.
-/

namespace SourceCompanion.AVTInput

namespace Traced

variable {frameSize : ℕ} {t : Traced} {index : ℤ} {queueData : OrderedQueueData}

/-- A part of an alignment period advances the time base by the indexes since the part before
it, and a superframe is handed out with the time elapsed since the start of the period. -/
def KeepsTime (t : Traced) : Event → Prop
  | .part index queueData => t.assembly.frameAligned = true →
      index.tmod 5 = t.assembly.nbFrames →
      (t.take index queueData).assembly.frameZeroTimestamp =
        t.assembly.frameZeroTimestamp +
          Assembly.partDuration * ((index - t.last) % maxQueueSize)
  | .finish bufSize => ∀ f ∈ (t.step (.finish bufSize)).1,
      f.timestamp = f.start + Assembly.partDuration * f.elapsed

/-- A part of an alignment period has the expected index. -/
def Expected (t : Traced) : Event → Prop
  | .part index _ => t.assembly.frameAligned = true → index.tmod 5 = t.assembly.nbFrames →
      index = t.assembly.expectedFrameIndex
  | .finish _ => True

instance : ∀ (t : Traced) (e : Event), Decidable (Expected t e)
  | t, .part index _ => inferInstanceAs (Decidable (t.assembly.frameAligned = true →
      index.tmod 5 = t.assembly.nbFrames → index = t.assembly.expectedFrameIndex))
  | _, .finish _ => inferInstanceAs (Decidable True)

instance : ∀ (t : Traced) (e : Event), Decidable (KeepsTime t e)
  | t, .part index queueData => inferInstanceAs (Decidable (t.assembly.frameAligned = true →
      index.tmod 5 = t.assembly.nbFrames →
      (t.take index queueData).assembly.frameZeroTimestamp = t.assembly.frameZeroTimestamp +
        Assembly.partDuration * ((index - t.last) % maxQueueSize)))
  | t, .finish bufSize => inferInstanceAs (Decidable (∀ f ∈ (t.step (.finish bufSize)).1,
      f.timestamp = f.start + Assembly.partDuration * f.elapsed))

/-- While aligned, the expected index follows the index of the last part. -/
structure Follows (t : Traced) : Prop where
  last_mem : t.assembly.frameAligned = true → 0 ≤ t.last ∧ t.last < maxQueueSize
  expected : t.assembly.frameAligned = true →
    t.assembly.expectedFrameIndex = (t.last + 1) % maxQueueSize

/-- While aligned, the time base is that of the last part. -/
def InTime (t : Traced) : Prop :=
  t.assembly.frameAligned = true →
    t.assembly.frameZeroTimestamp = t.start + Assembly.partDuration * t.elapsed

theorem Follows.step (h : Follows t) {e : Event} (hw : WellFormed frameSize t e) :
    Follows (t.step e).2 := by
  cases e with
  | part index queueData =>
    obtain ⟨-, h₀, h₁, -⟩ := hw
    have hnext : (index + 1).tmod maxQueueSize = (index + 1) % maxQueueSize :=
      Int.tmod_eq_emod_of_nonneg (by omega)
    change Follows (t.take index queueData)
    rcases t.take_cases index queueData with ⟨-, -, he⟩ | ⟨-, -, he⟩ | ⟨-, -, he⟩ | ⟨-, -, he⟩ <;>
      rw [he]
    · exact h
    · exact ⟨fun _ => ⟨h₀, h₁⟩, fun _ => hnext⟩
    · exact ⟨fun _ => ⟨h₀, h₁⟩, fun _ => hnext⟩
    · constructor <;> exact fun hc => nomatch hc
  | finish bufSize =>
    rcases t.finish_cases bufSize with he | ⟨-, he⟩ <;> rw [he]
    · exact h
    · exact ⟨h.last_mem, h.expected⟩

theorem Follows.elapsed_eq_one_iff (h : Follows t) (ha : t.assembly.frameAligned = true)
    (hw : WellFormed frameSize t (.part index queueData)) :
    (index - t.last) % maxQueueSize = 1 ↔ index = t.assembly.expectedFrameIndex := by
  obtain ⟨-, h₀, h₁, -⟩ := hw
  obtain ⟨hl₀, hl₁⟩ := h.last_mem ha
  rw [h.expected ha]
  simp only [maxQueueSize] at *
  omega

/-- A part of an alignment period keeps time exactly when it is the expected one. -/
theorem keepsTime_part_iff (h : Follows t) (hw : WellFormed frameSize t (.part index queueData)) :
    KeepsTime t (.part index queueData) ↔ Expected t (.part index queueData) := by
  refine forall_congr' fun ha => forall_congr' fun h₅ => ?_
  rcases t.take_cases index queueData with ⟨hn, -, -⟩ | ⟨hn, -, -⟩ | ⟨-, -, he⟩ | ⟨-, hn, -⟩
  · rw [ha] at hn
    cases hn
  · rw [ha] at hn
    cases hn
  · rw [← h.elapsed_eq_one_iff ha hw, he]
    simp only [Assembly.partDuration]
    constructor
    · intro heq
      omega
    · intro heq
      rw [heq]
      rfl
  · exact absurd h₅ hn

theorem InTime.step (ht : InTime t) (h : Follows t) {e : Event} (hw : WellFormed frameSize t e)
    (hexp : Expected t e) : InTime (t.step e).2 := by
  cases e with
  | part index queueData =>
    change InTime (t.take index queueData)
    rcases t.take_cases index queueData with ⟨-, -, he⟩ | ⟨-, -, he⟩ | ⟨ha, h₅, he⟩ | ⟨-, -, he⟩ <;>
      rw [he]
    · exact ht
    · intro _
      simp
    · intro _
      have hone := (h.elapsed_eq_one_iff ha hw).mpr (hexp ha h₅)
      dsimp only
      rw [ht ha, hone, mul_add, mul_one, add_assoc]
    · intro hc
      cases hc
  | finish bufSize =>
    rcases t.finish_cases bufSize with he | ⟨-, he⟩ <;> rw [he]
    · exact ht
    · exact ht

theorem InTime.keepsTime_finish (ht : InTime t) (h : Holds frameSize t) (bufSize : ℕ) :
    KeepsTime t (.finish bufSize) := by
  intro f hf
  rcases t.finish_cases bufSize with he | ⟨hdone, he⟩ <;> rw [he] at hf
  · cases hf
  · obtain rfl := Option.some.inj hf
    refine ht ?_
    cases ha : t.assembly.frameAligned with
    | true => rfl
    | false =>
      have := h.unaligned ha
      omega

end Traced

open Traced

/-- In a run of calls the time base advances with the indexes, and every superframe gets the
capture time of the start of its alignment period and the time elapsed since, exactly when
every part of an alignment period has the expected index. -/
theorem keepsTime_iff {bitrate jitterBufferSize : ℕ} {s : AVTInput}
    (hs : setDabPlusParameters bitrate jitterBufferSize = some s) (calls : List Call) :
    Mealy.Along Traced.step KeepsTime ⟨s.assembly, [], 0, 0, 0⟩ (s.events calls) ↔
      Mealy.Along Traced.step Expected ⟨s.assembly, [], 0, 0, 0⟩ (s.events calls) := by
  obtain ⟨hstocked, hassembly⟩ := stocked_of_setDabPlusParameters hs
  have hwell := wellFormed_events (t := ⟨s.assembly, [], 0, 0, 0⟩) calls hstocked rfl
  have hunaligned : s.assembly.frameAligned = false := by rw [hassembly]
  have hholds : Holds s.dab24msFrameSize ⟨s.assembly, [], 0, 0, 0⟩ := holds_init hassembly
  have hfollows : Follows ⟨s.assembly, [], 0, 0, 0⟩ := by
    constructor <;> simp [hunaligned]
  constructor
  · intro hkeeps
    refine (hwell.and hkeeps).of_invariant (I := Follows) hfollows
      (fun t e h he => h.step he.1) fun t e h he => ?_
    cases e with
    | part index queueData => exact (keepsTime_part_iff h he.1).mp he.2
    | finish bufSize => trivial
  · intro hexp
    refine (hwell.and hexp).of_invariant
      (I := fun t => Holds s.dab24msFrameSize t ∧ Follows t ∧ InTime t)
      ⟨hholds, hfollows, fun ha => ?_⟩ (fun t e h he => ?_) fun t e h he => ?_
    · simp [hunaligned] at ha
    · obtain ⟨hh, hf, ht⟩ := h
      exact ⟨hh.step he.1, hf.step he.1, ht.step hf he.1 he.2⟩
    · obtain ⟨hh, hf, ht⟩ := h
      cases e with
      | part index queueData => exact (keepsTime_part_iff hf he.1).mpr he.2
      | finish bufSize => exact ht.keepsTime_finish hh bufSize

/-- When a whole superframe is lost, the next one is handed out as if it followed at once. -/
theorem lost_superframe_shifts_time :
    setDabPlusParameters 8 5 = some smallInput ∧
      (Mealy.outputs getNextFrame smallInput
        [callWith [0, 1, 2, 3, 4], callWith [10, 11, 12, 13, 14]]).map (Option.map Prod.snd) =
        [some (Assembly.partDuration * 4), some (Assembly.partDuration * 9)] ∧
      (smallInput.superframes [callWith [0, 1, 2, 3, 4], callWith [10, 11, 12, 13, 14]]).map
        (fun f => (f.start, f.elapsed)) = [(0, 4), (0, 14)] ∧
      ¬ Mealy.Along Traced.step KeepsTime ⟨smallInput.assembly, [], 0, 0, 0⟩
        (smallInput.events [callWith [0, 1, 2, 3, 4], callWith [10, 11, 12, 13, 14]]) := by
  refine ⟨rfl, by decide, by decide, by decide⟩

theorem keepsTime_reordered :
    Mealy.Along Traced.step KeepsTime ⟨smallInput.assembly, [], 0, 0, 0⟩
      (smallInput.events [callWith [0, 2, 1], callWith [4, 3, 5]]) :=
  (keepsTime_iff setDabPlusParameters_smallInput _).mpr (by decide)

end SourceCompanion.AVTInput
