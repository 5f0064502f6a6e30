import Mathlib.Data.List.ReduceOption
import SourceCompanion.AVTInput.Basic
import SourceCompanion.Run.Mealy

/-! # The history of a run

A run of calls is the sequence of parts that the loop takes and of the ends of the calls. The
traced assembly remembers, beside the state, the parts of the current superframe and the part
that started the alignment period. Forgetting them again gives the calls.
-/

namespace SourceCompanion.AVTInput

inductive Event where
  | part (index : ℤ) (queueData : OrderedQueueData)
  | finish (bufSize : ℕ)
  deriving DecidableEq, Repr

inductive Verdict where
  | skipped
  | started
  | accepted
  | reset
  deriving DecidableEq, Repr

def Assembly.verdict (s : Assembly) (index : ℤ) : Verdict :=
  if ¬ s.frameAligned then
    if index.tmod 5 = 0 then .started else .skipped
  else if index.tmod 5 = s.nbFrames then .accepted
  else .reset

/-- A superframe that was handed out, with its parts and the alignment period it is from. -/
structure Superframe where
  bytes : List UInt8
  timestamp : ℤ
  parts : List (ℤ × OrderedQueueData)
  start : ℤ
  elapsed : ℤ
  deriving DecidableEq, Repr

/-- The assembly with the parts of the current superframe, the capture time of the part that
started the alignment period, the index accepted last and the indexes elapsed since the
start. -/
structure Traced where
  assembly : Assembly
  parts : List (ℤ × OrderedQueueData) := []
  start : ℤ := 0
  last : ℤ := 0
  elapsed : ℤ := 0
  deriving DecidableEq, Repr

namespace Traced

def take (t : Traced) (index : ℤ) (queueData : OrderedQueueData) : Traced :=
  let assembly := t.assembly.takePart index queueData
  match t.assembly.verdict index with
  | .skipped => { t with assembly }
  | .started =>
    { assembly
      parts := [(index, queueData)]
      start := queueData.captureTimestamp
      last := index
      elapsed := 0 }
  | .accepted =>
    { t with
      assembly
      parts := t.parts ++ [(index, queueData)]
      last := index
      elapsed := t.elapsed + (index - t.last) % maxQueueSize }
  | .reset => { t with assembly, parts := [] }

def step (t : Traced) : Event → Option Superframe × Traced
  | .part index queueData => (none, t.take index queueData)
  | .finish bufSize =>
    match t.assembly.finish bufSize with
    | (some (bytes, timestamp), assembly) =>
      (some { t with bytes, timestamp }, { t with assembly, parts := [] })
    | (none, assembly) => (none, { t with assembly })

@[simp] theorem assembly_take (t : Traced) (index : ℤ) (queueData : OrderedQueueData) :
    (t.take index queueData).assembly = t.assembly.takePart index queueData := by
  unfold take
  cases t.assembly.verdict index <;> rfl

/-- The four things that can become of a part. -/
theorem take_cases (t : Traced) (index : ℤ) (queueData : OrderedQueueData) :
    (t.assembly.frameAligned = false ∧ index.tmod 5 ≠ 0 ∧ t.take index queueData = t) ∨
    (t.assembly.frameAligned = false ∧ index.tmod 5 = 0 ∧ t.take index queueData = {
      assembly := { t.assembly.append index queueData.buf with
        frameAligned := true
        frameZeroTimestamp := queueData.captureTimestamp }
      parts := [(index, queueData)]
      start := queueData.captureTimestamp
      last := index
      elapsed := 0 }) ∨
    (t.assembly.frameAligned = true ∧ index.tmod 5 = t.assembly.nbFrames ∧
      t.take index queueData = { t with
        assembly := { t.assembly.append index queueData.buf with
          frameZeroTimestamp := t.assembly.frameZeroTimestamp + Assembly.partDuration }
        parts := t.parts ++ [(index, queueData)]
        last := index
        elapsed := t.elapsed + (index - t.last) % maxQueueSize }) ∨
    (t.assembly.frameAligned = true ∧ index.tmod 5 ≠ t.assembly.nbFrames ∧
      t.take index queueData = { t with
        assembly := { t.assembly with
          nbFrames := 0
          currentFrameSize := 0
          frameAligned := false
          expectedFrameIndex := 0 }
        parts := [] }) := by
  unfold take Assembly.takePart Assembly.verdict
  cases ha : t.assembly.frameAligned with
  | false =>
    by_cases h : index.tmod 5 = 0
    · simp [h]
    · simp [h]
  | true =>
    by_cases h : index.tmod 5 = t.assembly.nbFrames
    · simp [h]
    · simp [h]

theorem finish_cases (t : Traced) (bufSize : ℕ) :
    t.step (.finish bufSize) = (none, t) ∨
    t.assembly.nbFrames = 5 ∧ t.step (.finish bufSize) =
      (some { t with
        bytes := t.assembly.currentFrame.take t.assembly.currentFrameSize
        timestamp := t.assembly.frameZeroTimestamp },
      { t with
        assembly := { t.assembly with currentFrameSize := 0, nbFrames := 0 }
        parts := [] }) := by
  unfold step Assembly.finish
  by_cases h : t.assembly.nbFrames = 5 ∧ t.assembly.currentFrameSize ≤ bufSize
  · exact Or.inr ⟨h.1, by simp only [if_pos h]⟩
  · exact Or.inl (by simp only [if_neg h])

end Traced

section Events

def takenParts : ℕ → AVTInput → List (ℤ × OrderedQueueData)
  | 0, _ => []
  | fuel + 1, s =>
    if s.assembly.nbFrames < 5 then
      match s.ordered.pop with
      | (some (index, queueData), ordered) =>
        if queueData.buf = [] then []
        else (index, queueData) ::
          takenParts fuel { s with ordered, assembly := s.assembly.takePart index queueData }
      | (none, _) => []
    else []

def callEvents (s : AVTInput) (call : Call) : List Event :=
  let s := s.readFrames call.pending
  (takenParts s.ordered.size s).map (fun (index, queueData) => .part index queueData) ++
    [.finish call.bufSize]

def events (s : AVTInput) : List Call → List Event
  | [] => []
  | call :: calls => s.callEvents call ++ events (s.getNextFrame call).2 calls

/-- The superframes that a run of calls hands out, with their history. -/
def superframes (s : AVTInput) (calls : List Call) : List Superframe :=
  (Mealy.outputs Traced.step ⟨s.assembly, [], 0, 0, 0⟩ (s.events calls)).reduceOption

theorem assembly_readFrame (s : AVTInput) (d : Datagram) (ts : ℤ) :
    (s.readFrame d ts).2.assembly = s.assembly := by
  unfold readFrame
  split
  · dsimp only
    split <;> rfl
  · rfl

theorem assembly_readFrames (s : AVTInput) (pending : List (Datagram × ℤ)) :
    (s.readFrames pending).assembly = s.assembly := by
  induction pending generalizing s with
  | nil => rfl
  | cons p pending ih =>
    obtain ⟨d, ts⟩ := p
    have hread := s.assembly_readFrame d ts
    rw [readFrames]
    generalize s.readFrame d ts = r at hread ⊢
    obtain ⟨_ | _, s'⟩ := r
    · exact hread
    · exact (ih s').trans hread

theorem state_takenParts (fuel : ℕ) {s : AVTInput} {t : Traced} (h : t.assembly = s.assembly) :
    (Mealy.state Traced.step t ((takenParts fuel s).map fun (index, queueData) =>
        .part index queueData)).assembly = (assembleParts fuel s).assembly ∧
      (Mealy.outputs Traced.step t ((takenParts fuel s).map fun (index, queueData) =>
        .part index queueData)).reduceOption = [] := by
  induction fuel generalizing s t with
  | zero => exact ⟨h, rfl⟩
  | succ fuel ih =>
    rw [takenParts, assembleParts]
    split
    · rcases s.ordered.pop with ⟨_ | ⟨index, queueData⟩, ordered⟩
      · exact ⟨h, rfl⟩
      · dsimp only
        split
        · exact ⟨h, rfl⟩
        · refine ih (t := (t.step (.part index queueData)).2) ?_
          exact (t.assembly_take index queueData).trans (by rw [h])
    · exact ⟨h, rfl⟩

theorem state_callEvents (call : Call) {s : AVTInput} {t : Traced} (h : t.assembly = s.assembly) :
    (Mealy.state Traced.step t (s.callEvents call)).assembly = (s.getNextFrame call).2.assembly ∧
      (Mealy.outputs Traced.step t (s.callEvents call)).reduceOption.map
        (fun f => (f.bytes, f.timestamp)) = (s.getNextFrame call).1.toList := by
  have hread : t.assembly = (s.readFrames call.pending).assembly := by
    rw [assembly_readFrames, h]
  obtain ⟨hstate, hout⟩ := state_takenParts (s.readFrames call.pending).ordered.size hread
  simp only [callEvents, Mealy.state_append, Mealy.state_cons, Mealy.state_nil,
    Mealy.outputs_append, Mealy.outputs_cons, Mealy.outputs_nil, List.reduceOption_append, hout,
    List.nil_append, getNextFrame, Traced.step, hstate]
  rcases (assembleParts _ _).assembly.finish call.bufSize with ⟨_ | ⟨bytes, timestamp⟩, assembly⟩
  · exact ⟨rfl, rfl⟩
  · exact ⟨rfl, rfl⟩

theorem state_events (calls : List Call) {s : AVTInput} {t : Traced}
    (h : t.assembly = s.assembly) :
    (Mealy.state Traced.step t (s.events calls)).assembly =
        (Mealy.state getNextFrame s calls).assembly ∧
      (Mealy.outputs Traced.step t (s.events calls)).reduceOption.map
        (fun f => (f.bytes, f.timestamp)) = (Mealy.outputs getNextFrame s calls).reduceOption := by
  induction calls generalizing s t with
  | nil => exact ⟨h, rfl⟩
  | cons call calls ih =>
    obtain ⟨hstate, hout⟩ := state_callEvents call h
    obtain ⟨hstate', hout'⟩ := ih hstate
    rw [events, Mealy.state_append, Mealy.outputs_append, List.reduceOption_append,
      List.map_append, hout, hout', Mealy.outputs_cons]
    refine ⟨hstate', ?_⟩
    cases (s.getNextFrame call).1 <;> rfl

end Events

section Stock

structure Stocked (frameSize : ℕ) (s : AVTInput) : Prop where
  size : s.dab24msFrameSize = frameSize
  size_lt : frameSize < 2 ^ 31
  maxIndex : s.ordered.maxIndex = maxQueueSize
  buf : ∀ k queueData, s.ordered.stock.lookup k = some queueData →
    queueData.buf.length = frameSize

/-- A part is taken only into an incomplete superframe, and has an index of the cycle and the
configured size. -/
def WellFormed (frameSize : ℕ) (t : Traced) : Event → Prop
  | .part index queueData => t.assembly.nbFrames < 5 ∧ 0 ≤ index ∧ index < maxQueueSize ∧
      queueData.buf.length = frameSize
  | .finish _ => True

variable {frameSize : ℕ} {s : AVTInput}

theorem stocked_of_setDabPlusParameters {bitrate jitterBufferSize : ℕ}
    (h : setDabPlusParameters bitrate jitterBufferSize = some s) :
    Stocked s.dab24msFrameSize s ∧
      s.assembly = { currentFrame := List.replicate (5 * s.dab24msFrameSize) 0 } := by
  obtain ⟨frameSize, hsize, rfl⟩ := Option.map_eq_some_iff.mp h
  simp only [configuredFrameSize] at hsize
  split at hsize
  · cases hsize
  · obtain rfl := Option.some.inj hsize
    refine ⟨⟨rfl, by dsimp only; omega, rfl, fun k queueData hk => ?_⟩, ?_⟩
    · simp at hk
    · dsimp only
      rw [show bitrate / 8 * 8 * 5 * 3 = 5 * (bitrate * 3) by omega]

theorem Stocked.readFrame (h : Stocked frameSize s) (d : Datagram) (ts : ℤ) :
    Stocked frameSize (s.readFrame d ts).2 := by
  unfold AVTInput.readFrame
  split
  · obtain ⟨found, next, reads, hrec, hfound, -⟩ :=
      d.frameToPush_apply (h.size ▸ h.size_lt) s.previousRtpIndex
    rw [hrec]
    cases found with
    | none => exact ⟨h.size, h.size_lt, h.maxIndex, h.buf⟩
    | some frame =>
      obtain ⟨base, hacc, rfl⟩ := (hfound frame).mp rfl
      refine ⟨h.size, h.size_lt, (OrderedQueue.maxIndex_push _ _).trans h.maxIndex,
        fun k queueData hk => ?_⟩
      rcases OrderedQueue.lookup_of_lookup_push hk with rfl | hk
      · rw [Datagram.payload, List.length_map, List.length_range, ← h.size]
        exact (Datagram.dataSize_found_eq_iff (h.size ▸ h.size_lt)).mpr hacc.stl_eq
      · exact h.buf k queueData hk
  · exact h

theorem Stocked.readFrames (h : Stocked frameSize s) (pending : List (Datagram × ℤ)) :
    Stocked frameSize (s.readFrames pending) := by
  induction pending generalizing s with
  | nil => exact h
  | cons p pending ih =>
    obtain ⟨d, ts⟩ := p
    have hread := h.readFrame d ts
    rw [AVTInput.readFrames]
    generalize s.readFrame d ts = r at hread ⊢
    obtain ⟨_ | _, s'⟩ := r
    · exact hread
    · exact ih hread

theorem Stocked.pop (h : Stocked frameSize s) {index : ℤ} {queueData : OrderedQueueData}
    {ordered : OrderedQueue OrderedQueueData}
    (hpop : s.ordered.pop = (some (index, queueData), ordered)) (assembly : Assembly) :
    Stocked frameSize { s with ordered, assembly } ∧
      0 ≤ index ∧ index < maxQueueSize ∧ queueData.buf.length = frameSize := by
  rcases s.ordered.pop_cases with ⟨hp, -⟩ | ⟨q', k, d, hp, hq⟩
  · rw [hp] at hpop
    cases hpop
  · rw [hp] at hpop
    cases hpop
    have hmem := s.ordered.stock_mem _ hq.mem
    rw [h.maxIndex] at hmem
    refine ⟨⟨h.size, h.size_lt, hq.maxIndex.trans h.maxIndex, fun k d hk => ?_⟩, hmem.1, hmem.2,
      h.buf _ _ hq.lookup⟩
    exact h.buf k d (hq.lookup_of_lookup hk)

theorem Stocked.takenParts (fuel : ℕ) {t : Traced} (h : Stocked frameSize s)
    (ht : t.assembly = s.assembly) :
    Stocked frameSize (assembleParts fuel s) ∧
      Mealy.Along Traced.step (WellFormed frameSize) t
        ((AVTInput.takenParts fuel s).map fun (index, queueData) => .part index queueData) := by
  induction fuel generalizing s t with
  | zero => exact ⟨h, trivial⟩
  | succ fuel ih =>
    rw [AVTInput.takenParts, assembleParts]
    split
    · rename_i hlt
      rcases hpop : s.ordered.pop with ⟨_ | ⟨index, queueData⟩, ordered⟩
      · rcases s.ordered.pop_cases with ⟨hp, -⟩ | ⟨_, _, _, hp, -⟩
        · rw [hp] at hpop
          cases hpop
          exact ⟨h, trivial⟩
        · rw [hp] at hpop
          cases hpop
      · obtain ⟨hs, hmem⟩ := h.pop hpop (s.assembly.takePart index queueData)
        dsimp only
        split
        · exact ⟨(h.pop hpop s.assembly).1, trivial⟩
        · have hta : (t.step (.part index queueData)).2.assembly =
              s.assembly.takePart index queueData :=
            (t.assembly_take index queueData).trans (by rw [ht])
          obtain ⟨hs', halong⟩ := ih hs hta
          exact ⟨hs', ⟨ht ▸ hlt, hmem⟩, halong⟩
    · exact ⟨h, trivial⟩

theorem Stocked.getNextFrame {t : Traced} (h : Stocked frameSize s)
    (ht : t.assembly = s.assembly) (call : Call) :
    Stocked frameSize (s.getNextFrame call).2 ∧
      Mealy.Along Traced.step (WellFormed frameSize) t (s.callEvents call) := by
  have hread : t.assembly = (s.readFrames call.pending).assembly := by
    rw [assembly_readFrames, ht]
  obtain ⟨hs, halong⟩ := (h.readFrames call.pending).takenParts
    (s.readFrames call.pending).ordered.size hread
  refine ⟨⟨hs.size, hs.size_lt, hs.maxIndex, hs.buf⟩, ?_⟩
  rw [callEvents, Mealy.along_append]
  exact ⟨halong, trivial, trivial⟩

theorem wellFormed_events (calls : List Call) {t : Traced} (h : Stocked frameSize s)
    (ht : t.assembly = s.assembly) :
    Mealy.Along Traced.step (WellFormed frameSize) t (s.events calls) := by
  induction calls generalizing s t with
  | nil => trivial
  | cons call calls ih =>
    obtain ⟨hs, halong⟩ := h.getNextFrame ht call
    obtain ⟨hstate, -⟩ := state_callEvents call ht
    rw [events, Mealy.along_append]
    exact ⟨halong, ih hs hstate⟩

end Stock

end SourceCompanion.AVTInput
