import Mathlib.Tactic.Ring
import SourceCompanion.AVTInput.History

/-! # The parts of a superframe

A superframe is the concatenation of five parts whose indexes are congruent to their places
modulo five. They are also contiguous as long as no part with an unexpected index continues a
superframe.
-/

namespace SourceCompanion.AVTInput

open Bytes

/-- The superframe is the concatenation of five parts with contiguous indexes. -/
def Superframe.Contiguous (f : Superframe) : Prop :=
  (f.bytes = f.parts.flatMap fun p => p.2.buf) ∧
    ∃ k : ℤ, f.parts.map Prod.fst = [5 * k, 5 * k + 1, 5 * k + 2, 5 * k + 3, 5 * k + 4]

namespace Traced

variable {frameSize : ℕ} {t : Traced} {index : ℤ} {queueData : OrderedQueueData}

/-- The buffer holds the parts of the current superframe one after the other. -/
structure Holds (frameSize : ℕ) (t : Traced) : Prop where
  buffer : t.assembly.currentFrame.length = 5 * frameSize
  count : t.parts.length = t.assembly.nbFrames
  count_le : t.assembly.nbFrames ≤ 5
  size : t.assembly.currentFrameSize = t.assembly.nbFrames * frameSize
  bytes : t.assembly.currentFrame.take t.assembly.currentFrameSize =
    t.parts.flatMap fun p => p.2.buf
  unaligned : t.assembly.frameAligned = false → t.assembly.nbFrames = 0

theorem Holds.parts_eq_nil (h : Holds frameSize t) (hn : t.assembly.nbFrames = 0) :
    t.parts = [] := List.length_eq_zero_iff.mp (h.count.trans hn)

/-- Appending a part keeps the buffer in step with the parts. -/
theorem Holds.append (h : Holds frameSize t) (index : ℤ) (hlt : t.assembly.nbFrames < 5)
    (hlen : queueData.buf.length = frameSize) {t' : Traced}
    (hframe : t'.assembly.currentFrame = (t.assembly.append index queueData.buf).currentFrame)
    (hsize : t'.assembly.currentFrameSize =
      (t.assembly.append index queueData.buf).currentFrameSize)
    (hcount : t'.assembly.nbFrames = t.assembly.nbFrames + 1)
    (hparts : t'.parts = t.parts ++ [(index, queueData)])
    (haligned : t'.assembly.frameAligned = true) : Holds frameSize t' := by
  have hle : (t.assembly.nbFrames + 1) * frameSize ≤ 5 * frameSize :=
    Nat.mul_le_mul_right _ hlt
  have hfit : t.assembly.currentFrameSize + queueData.buf.length ≤
      t.assembly.currentFrame.length := by
    rw [Nat.succ_mul] at hle
    rw [h.size, h.buffer, hlen]
    exact hle
  simp only [Assembly.append] at hframe hsize
  refine ⟨?_, ?_, ?_, ?_, ?_, ?_⟩
  · rw [hframe, length_memcpy hfit, h.buffer]
  · rw [hparts, hcount, List.length_append, h.count, List.length_singleton]
  · rw [hcount]
    exact hlt
  · rw [hsize, hcount, h.size, hlen, Nat.succ_mul]
  · rw [hframe, hsize, take_memcpy (by omega), h.bytes, hparts, List.flatMap_append]
    simp
  · intro hc
    rw [haligned] at hc
    cases hc

theorem Holds.take (h : Holds frameSize t)
    (hw : WellFormed frameSize t (.part index queueData)) :
    Holds frameSize (t.take index queueData) := by
  obtain ⟨hlt, -, -, hlen⟩ := hw
  rcases t.take_cases index queueData with ⟨-, -, he⟩ | ⟨ha, -, he⟩ | ⟨ha, -, he⟩ | ⟨-, -, he⟩ <;>
    rw [he]
  · exact h
  · have hnil := h.parts_eq_nil (h.unaligned ha)
    exact h.append index hlt hlen rfl rfl rfl (by rw [hnil]; rfl) rfl
  · exact h.append index hlt hlen rfl rfl rfl rfl ha
  · exact ⟨h.buffer, rfl, Nat.zero_le _, by simp, by simp, fun _ => rfl⟩

theorem holds_init {s : AVTInput}
    (h : s.assembly = { currentFrame := List.replicate (5 * frameSize) 0 }) :
    Holds frameSize ⟨s.assembly, [], 0, 0, 0⟩ := by
  rw [h]
  exact ⟨by simp, rfl, by simp, by simp, by simp, fun _ => rfl⟩

theorem Holds.finish (h : Holds frameSize t) (bufSize : ℕ) :
    Holds frameSize (t.step (.finish bufSize)).2 ∧
      ∀ f ∈ (t.step (.finish bufSize)).1,
        t.assembly.nbFrames = 5 ∧ f.parts = t.parts ∧
          f.bytes = f.parts.flatMap fun p => p.2.buf := by
  rcases t.finish_cases bufSize with he | ⟨hdone, he⟩ <;> rw [he]
  · exact ⟨h, by rintro f ⟨⟩⟩
  · refine ⟨⟨h.buffer, rfl, Nat.zero_le _, by simp, by simp, fun _ => rfl⟩, ?_⟩
    rintro f ⟨⟩
    exact ⟨hdone, rfl, h.bytes⟩

theorem Holds.step (h : Holds frameSize t) {e : Event} (hw : WellFormed frameSize t e) :
    Holds frameSize (t.step e).2 := by
  cases e with
  | part index queueData => exact h.take hw
  | finish bufSize => exact (h.finish bufSize).1

/-- The current superframe consists of contiguous parts from a multiple of five on, and the
index after them is expected. -/
structure Contiguous (t : Traced) (k : ℤ) : Prop where
  nonneg : 0 ≤ k
  lt : k < 1000
  indexes : t.parts.map Prod.fst = (List.range t.assembly.nbFrames).map fun i => 5 * k + (i : ℤ)
  expected : 0 < t.assembly.nbFrames →
    t.assembly.expectedFrameIndex = (5 * k + t.assembly.nbFrames) % maxQueueSize

/-- A part that continues a superframe has the expected index. -/
def InSequence (t : Traced) : Event → Prop
  | .part index _ => t.assembly.frameAligned = true → 0 < t.assembly.nbFrames →
      index.tmod 5 = t.assembly.nbFrames → index = t.assembly.expectedFrameIndex
  | .finish _ => True

instance : ∀ (t : Traced) (e : Event), Decidable (InSequence t e)
  | t, .part index _ => inferInstanceAs (Decidable (t.assembly.frameAligned = true →
      0 < t.assembly.nbFrames → index.tmod 5 = t.assembly.nbFrames →
      index = t.assembly.expectedFrameIndex))
  | _, .finish _ => inferInstanceAs (Decidable True)

theorem contiguous_first (h₀ : 0 ≤ index) (h₁ : index < maxQueueSize) (h₅ : index.tmod 5 = 0)
    (hparts : t.parts = [(index, queueData)]) (hcount : t.assembly.nbFrames = 1)
    (hexpected : t.assembly.expectedFrameIndex = (index + 1).tmod maxQueueSize) :
    ∃ k, Contiguous t k := by
  rw [Int.tmod_eq_emod_of_nonneg h₀] at h₅
  rw [Int.tmod_eq_emod_of_nonneg (by omega)] at hexpected
  have hk : 5 * (index / 5) = index := by omega
  refine ⟨index / 5, by omega, by simp only [maxQueueSize] at h₁; omega, ?_, fun _ => ?_⟩
  · simp [hparts, hcount, hk]
  · rw [hexpected, hcount, hk]
    rfl

theorem Contiguous.take {k : ℤ} (hc : Contiguous t k) (h : Holds frameSize t)
    (hw : WellFormed frameSize t (.part index queueData))
    (hs : InSequence t (.part index queueData)) :
    ∃ k, Contiguous (t.take index queueData) k := by
  obtain ⟨hlt, h₀, h₁, -⟩ := hw
  rcases t.take_cases index queueData with ⟨-, -, he⟩ | ⟨ha, h₅, he⟩ | ⟨ha, h₅, he⟩ | ⟨-, -, he⟩ <;>
    rw [he]
  · exact ⟨k, hc⟩
  · exact contiguous_first h₀ h₁ h₅ rfl (by simp [Assembly.append, h.unaligned ha]) rfl
  · rcases Nat.eq_zero_or_pos t.assembly.nbFrames with hn | hn
    · have hnil : t.parts ++ [(index, queueData)] = [(index, queueData)] := by
        rw [h.parts_eq_nil hn]
        rfl
      exact contiguous_first h₀ h₁ (by simpa [hn] using h₅) hnil (by simp [Assembly.append, hn]) rfl
    · have hi : index = 5 * k + t.assembly.nbFrames := by
        rw [hs ha hn h₅, hc.expected hn]
        exact Int.emod_eq_of_lt (by have := hc.nonneg; omega)
          (by have := hc.lt; simp only [maxQueueSize]; omega)
      refine ⟨k, hc.nonneg, hc.lt, ?_, fun _ => ?_⟩
      · simp [Assembly.append, List.range_succ, hc.indexes, hi]
      · simp only [Assembly.append]
        rw [Int.tmod_eq_emod_of_nonneg (by omega), hi, Nat.cast_succ, add_assoc]
  · exact ⟨k, hc.nonneg, hc.lt, rfl, fun hn => absurd hn (by simp)⟩

theorem Contiguous.finish {k : ℤ} (hc : Contiguous t k) (bufSize : ℕ) :
    Contiguous (t.step (.finish bufSize)).2 k := by
  rcases t.finish_cases bufSize with he | ⟨-, he⟩ <;> rw [he]
  · exact hc
  · exact ⟨hc.nonneg, hc.lt, rfl, fun hn => absurd hn (by simp)⟩

theorem invariant_step (e : Event)
    (h : Holds frameSize t ∧ ∃ k, Contiguous t k)
    (he : WellFormed frameSize t e ∧ InSequence t e) :
    Holds frameSize (t.step e).2 ∧ ∃ k, Contiguous (t.step e).2 k := by
  obtain ⟨hh, k, hc⟩ := h
  refine ⟨hh.step he.1, ?_⟩
  cases e with
  | part index queueData => exact hc.take hh he.1 he.2
  | finish bufSize => exact ⟨k, hc.finish bufSize⟩

theorem contiguous_of_step (e : Event) (h : Holds frameSize t ∧ ∃ k, Contiguous t k) :
    ∀ f ∈ (t.step e).1, f.Contiguous := by
  obtain ⟨hh, k, hc⟩ := h
  cases e with
  | part index queueData => rintro f ⟨⟩
  | finish bufSize =>
    intro f hf
    obtain ⟨hdone, hparts, hbytes⟩ := (hh.finish bufSize).2 f hf
    refine ⟨hbytes, k, ?_⟩
    rw [hparts, hc.indexes, hdone]
    simp [List.range_succ]

theorem Holds.length_of_step (h : Holds frameSize t) (e : Event) :
    ∀ f ∈ (t.step e).1, f.bytes.length = 5 * frameSize := by
  cases e with
  | part index queueData => rintro f ⟨⟩
  | finish bufSize =>
    rcases t.finish_cases bufSize with he | ⟨hdone, he⟩ <;> rw [he]
    · rintro f ⟨⟩
    · rintro f ⟨⟩
      rw [List.length_take, h.size, hdone, h.buffer, Nat.min_self]

end Traced

open Traced

theorem length_of_returned {bitrate jitterBufferSize : ℕ} {s : AVTInput}
    (hs : setDabPlusParameters bitrate jitterBufferSize = some s) (calls : List Call) :
    ∀ r ∈ (Mealy.outputs getNextFrame s calls).reduceOption,
      r.1.length = 5 * s.dab24msFrameSize := by
  obtain ⟨hstocked, hassembly⟩ := stocked_of_setDabPlusParameters hs
  have hinit : Holds s.dab24msFrameSize ⟨s.assembly, [], 0, 0, 0⟩ := holds_init hassembly
  have hreturned := (state_events calls (t := ⟨s.assembly, [], 0, 0, 0⟩) rfl).2
  intro r hr
  rw [← hreturned] at hr
  obtain ⟨f, hf, rfl⟩ := List.mem_map.mp hr
  exact (wellFormed_events calls hstocked rfl).forall_outputs
    (P := fun out => ∀ f ∈ out, f.bytes.length = 5 * s.dab24msFrameSize) hinit
    (fun t e h he => h.step he) (fun t e h _ => h.length_of_step e) _
    (List.reduceOption_mem_iff.mp hf) f rfl

/-- Every superframe that a run of calls returns is made of five parts with contiguous indexes,
if no part with an unexpected index continues a superframe. -/
theorem superframes_contiguous {bitrate jitterBufferSize : ℕ} {s : AVTInput}
    (hs : setDabPlusParameters bitrate jitterBufferSize = some s) (calls : List Call)
    (hseq : Mealy.Along Traced.step InSequence ⟨s.assembly, [], 0, 0, 0⟩ (s.events calls)) :
    (s.superframes calls).map (fun f => (f.bytes, f.timestamp)) =
        (Mealy.outputs getNextFrame s calls).reduceOption ∧
      ∀ f ∈ s.superframes calls, f.Contiguous := by
  obtain ⟨hstocked, hassembly⟩ := stocked_of_setDabPlusParameters hs
  refine ⟨(state_events calls rfl).2, fun f hf => ?_⟩
  have hinit : Holds s.dab24msFrameSize ⟨s.assembly, [], 0, 0, 0⟩ := holds_init hassembly
  have hcont : Contiguous ⟨s.assembly, [], 0, 0, 0⟩ 0 := by
    rw [hassembly]
    exact ⟨le_rfl, by decide, rfl, fun hn => absurd hn (by simp)⟩
  have halong := (wellFormed_events calls hstocked rfl).and hseq
  rw [superframes, List.reduceOption_mem_iff] at hf
  exact halong.forall_outputs (P := fun out => ∀ f ∈ out, f.Contiguous) ⟨hinit, 0, hcont⟩
    (fun t e h he => invariant_step e h he) (fun t e h _ => contiguous_of_step e h) _ hf f rfl

def smallInput : AVTInput where
  dab24msFrameSize := 24
  previousRtpIndex := -1
  ordered := .empty maxQueueSize 5 maxQueueSize_pos
  assembly := { currentFrame := List.replicate 120 0 }

theorem setDabPlusParameters_smallInput : setDabPlusParameters 8 5 = some smallInput := rfl

def stiDatagram (number : ℕ) : Datagram where
  bytes := [0, 0x1F, 0x90, 0xCA, 0, 0, 0, 0, 0, 0, 0, 0, 0, UInt8.ofNat (number % 250),
    UInt8.ofNat (number / 250 * 8), 1, 0, 24, 0, 0, 0, 0, 0, 0] ++
    List.replicate 24 (UInt8.ofNat number)
  beyond _ := 0

def callWith (numbers : List ℕ) : Call where
  pending := numbers.map fun n => (stiDatagram n, Assembly.partDuration * n)
  bufSize := 120

/-- After a gap of five parts in a superframe, the queue goes on with the next superframe, and
the assembly continues the first one with it. -/
theorem jump_mixes_superframes :
    setDabPlusParameters 8 5 = some smallInput ∧
      (Mealy.outputs getNextFrame smallInput [callWith [0], callWith [6, 7, 8, 9, 10]]).map
          (Option.map Prod.fst) =
        [none, some ([0, 6, 7, 8, 9].flatMap fun n => List.replicate 24 n)] ∧
      (smallInput.superframes [callWith [0], callWith [6, 7, 8, 9, 10]]).map
          (fun f => f.parts.map Prod.fst) = [[0, 6, 7, 8, 9]] ∧
      ¬ ∀ f ∈ smallInput.superframes [callWith [0], callWith [6, 7, 8, 9, 10]], f.Contiguous := by
  refine ⟨rfl, by decide, by decide, fun h => ?_⟩
  have hmem : [0, 6, 7, 8, 9] ∈ (smallInput.superframes [callWith [0],
      callWith [6, 7, 8, 9, 10]]).map (fun f => f.parts.map Prod.fst) := by decide
  obtain ⟨f, hf, hparts⟩ := List.mem_map.mp hmem
  obtain ⟨-, k, hk⟩ := h f hf
  simp only [hparts, List.cons.injEq] at hk
  omega

theorem superframes_contiguous_reordered :
    (smallInput.superframes [callWith [0, 2, 1], callWith [4, 3, 5]]).map
        (fun f => (f.bytes, f.timestamp)) =
      (Mealy.outputs getNextFrame smallInput
        [callWith [0, 2, 1], callWith [4, 3, 5]]).reduceOption ∧
      ∀ f ∈ smallInput.superframes [callWith [0, 2, 1], callWith [4, 3, 5]], f.Contiguous :=
  superframes_contiguous setDabPlusParameters_smallInput _ (by decide)

end SourceCompanion.AVTInput
