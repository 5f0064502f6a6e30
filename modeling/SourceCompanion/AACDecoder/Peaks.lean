import SourceCompanion.AACDecoder.Slices
import SourceCompanion.Run.Mealy

/-! # The levels of a superframe

The peaks are followed over all decoded buffers and start from zero again when they are taken, which
is only after a whole superframe. So what was decoded of a superframe that failed is counted with
the next one.
-/

namespace SourceCompanion.AACDecoder

open Recorded

variable {H : Type}

def decodedOf (events : List Event) : List (List UInt8) :=
  events.filterMap fun
    | .decoded outputFrame => some outputFrame
    | _ => none

def samples : List UInt8 → List (ℤ × ℤ)
  | b₀ :: b₁ :: b₂ :: b₃ :: rest => (sample b₀ b₁, sample b₂ b₃) :: samples rest
  | _ => []

def Peak.over (peak : Peak) (pairs : List (ℤ × ℤ)) : Peak where
  peakLeft := (pairs.map Prod.fst).foldl max peak.peakLeft
  peakRight := (pairs.map Prod.snd).foldl max peak.peakRight

def peakOf (pairs : List (ℤ × ℤ)) : Peak := Peak.over {} pairs

/-- A superframe with the number of its bytes and the buffer that it is in. -/
structure Superframe where
  numOutBytes : ℕ
  outbuf : ℕ → UInt8

inductive Outcome where
  | skipped
  | decoded (levels : Peak) (frames : List (List UInt8))
  | failed (what : String) (levels : Peak) (frames : List (List UInt8))

/-- Decode a superframe without the Reed-Solomon data. The peaks are taken if nothing was thrown. -/
def process (fdk : Fdk H) (s : AACDecoder H) (superframe : Superframe) :
    Outcome × AACDecoder H :=
  if superframe.numOutBytes ≠ 0 then
    if superframe.numOutBytes % 120 ≠ 0 then
      (.failed ("Invalid data length " ++ toString superframe.numOutBytes) {} [], s)
    else
      match decodeFrame fdk superframe.outbuf (superframe.numOutBytes / 120 * 110) s with
      | (.ok _, s, events) =>
        let (p, s) := getPeaks s
        (.decoded p (decodedOf events), s)
      | (.error what, s, events) => (.failed what {} (decodedOf events), s)
  else (.skipped, s)

/-- What is decoded and not yet counted after a superframe. -/
def Outcome.leave (frames : List (List UInt8)) : Outcome → List (List UInt8)
  | .skipped => frames
  | .decoded .. => []
  | .failed _ _ more => frames ++ more

/-- The buffers decoded from superframes that failed since the last one that did not. -/
def leftOver (outcomes : List Outcome) : List (List UInt8) := outcomes.foldl Outcome.leave []

section Levels

theorem foldl_max_le_iff {a b : ℤ} (l : List ℤ) :
    l.foldl max a ≤ b ↔ a ≤ b ∧ ∀ x ∈ l, x ≤ b := by
  induction l generalizing a with
  | nil => simp
  | cons x l ih => simp [ih, and_assoc]

theorem foldl_max_append (a : ℤ) (l m : List ℤ) :
    (l ++ m).foldl max a = max (l.foldl max a) (m.foldl max a) := by
  apply eq_of_forall_ge_iff
  intro c
  rw [List.foldl_append, max_le_iff, foldl_max_le_iff, foldl_max_le_iff, foldl_max_le_iff]
  tauto

theorem foldl_max_append_eq_iff (a : ℤ) (l m : List ℤ) :
    (l ++ m).foldl max a = m.foldl max a ↔ ∀ x ∈ l, x ≤ m.foldl max a := by
  have hstart : a ≤ m.foldl max a := ((foldl_max_le_iff m).mp le_rfl).1
  rw [foldl_max_append, max_eq_right_iff, foldl_max_le_iff]
  exact and_iff_right hstart

theorem over_append (peak : Peak) (left own : List (ℤ × ℤ)) :
    peak.over (left ++ own) = (peak.over left).over own := by
  simp only [Peak.over, List.map_append, List.foldl_append]

theorem peakOf_append_eq_iff (left own : List (ℤ × ℤ)) :
    peakOf (left ++ own) = peakOf own ↔
      ∀ x ∈ left, x.1 ≤ (peakOf own).peakLeft ∧ x.2 ≤ (peakOf own).peakRight := by
  simp only [peakOf, Peak.over, List.map_append, Peak.mk.injEq, foldl_max_append_eq_iff,
    List.forall_mem_map, forall_and]

theorem raise_over (peak : Peak) (l r : ℤ) (pairs : List (ℤ × ℤ)) :
    (peak.raise l r).over pairs = peak.over ((l, r) :: pairs) := rfl

theorem follow_eq (peak : Peak) (bytes : List UInt8) :
    peak.follow bytes = peak.over (samples bytes) := by
  fun_induction Peak.follow peak bytes with
  | case1 peak b₀ b₁ b₂ b₃ rest ih =>
    rw [samples, ← raise_over]
    exact ih
  | case2 bytes peak hshort =>
    rw [samples.eq_2 bytes hshort]
    rfl

end Levels

section Step

theorem decodedOf_append (v w : List Event) : decodedOf (v ++ w) = decodedOf v ++ decodedOf w :=
  List.filterMap_append

theorem decodedOf_of_touches {dacRate sbrFlag : Bool} {v : List Event}
    (h : ∀ e ∈ v, Touches dacRate sbrFlag e) : decodedOf v = [] := by
  apply List.filterMap_eq_nil_iff.mpr
  intro e he
  cases e with
  | decoded output => exact (h _ he).elim
  | _ => rfl

def Follows (s : AACDecoder H) (v : List Event) (s' : AACDecoder H) : Prop :=
  s'.peak = s.peak.over ((decodedOf v).flatMap samples)

theorem composes_follows : Composes (Follows (H := H)) where
  refl _ := rfl
  trans hv hw := by
    unfold Follows at *
    rw [hw, hv, decodedOf_append, List.flatMap_append, over_append]

theorem follows_load (auStart : ℕ → ℤ) (i : ℕ) : Keeps Follows (load (H := H) auStart i) :=
  fun _ => rfl

theorem follows_setUp (fdk : Fdk H) (layout : Layout) : Keeps Follows (setUp fdk layout) := by
  intro s
  obtain ⟨hevents, hpeak⟩ := setUp_cases fdk layout s
  rw [hevents]
  exact hpeak

theorem follows_decodeAu (fdk : Fdk H) (data : ℕ → UInt8) (start : ℤ) (len : ℕ) :
    Keeps Follows (decodeAu fdk data start len) := by
  intro s
  rcases decodeAu_cases fdk data start len s with
    ⟨what, s', hrun, hpeak⟩ | ⟨output, s', hrun, hpeak⟩
  · rw [hrun]
    exact hpeak
  · rw [hrun]
    rw [follow_eq] at hpeak
    exact hpeak.trans (congrArg _ (List.append_nil _).symm)

theorem follows_decodeUnits (fdk : Fdk H) (data : ℕ → UInt8) (layout : Layout) :
    Keeps Follows (decodeUnits fdk data layout) := by
  refine keeps_decodeUnits composes_follows ?_ ?_ ?_
  · exact fun i _ => follows_load layout.auStart i
  · exact follows_setUp fdk layout
  · exact follows_decodeAu fdk data

theorem follows_decodeFrame (fdk : Fdk H) (data : ℕ → UInt8) (len : ℕ) :
    Keeps Follows (decodeFrame fdk data len) := by
  intro s
  obtain ⟨accesses, hframe, htouches, -⟩ := decodeFrame_apply fdk data len s
  have hunits := follows_decodeUnits fdk data (layoutOf data len) s
  unfold Follows at hunits ⊢
  rw [hframe, decodedOf_append, decodedOf_of_touches htouches, hunits]
  rfl

/-- If the peaks are those of what is left over, then what a superframe decodes is counted together
with it, and what it leaves over is in the peaks again. -/
theorem process_cases (fdk : Fdk H) {s : AACDecoder H} {left : List (List UInt8)}
    (hs : s.peak = peakOf (left.flatMap samples)) (superframe : Superframe) :
    (process fdk s superframe).2.peak =
        peakOf (((process fdk s superframe).1.leave left).flatMap samples) ∧
      ∀ levels frames, (process fdk s superframe).1 = .decoded levels frames →
        levels = peakOf (left.flatMap samples ++ frames.flatMap samples) := by
  have hfollows := follows_decodeFrame fdk superframe.outbuf
    (superframe.numOutBytes / 120 * 110) s
  unfold Follows at hfollows
  rw [hs, peakOf, ← over_append] at hfollows
  unfold process
  split
  · split
    · refine ⟨?_, fun _ _ h => Outcome.noConfusion h⟩
      rw [Outcome.leave, List.append_nil]
      exact hs
    · split
      · rename_i hrun
        rw [hrun] at hfollows
        refine ⟨rfl, ?_⟩
        rintro levels frames ⟨⟩
        exact hfollows
      · rename_i hrun
        rw [hrun] at hfollows
        refine ⟨?_, fun _ _ h => Outcome.noConfusion h⟩
        rw [Outcome.leave, List.flatMap_append]
        exact hfollows
  · exact ⟨hs, fun _ _ h => Outcome.noConfusion h⟩

end Step

section Run

variable (fdk : Fdk H) (h : H) (w : List Superframe)

def outcomes : List Outcome := Mealy.outputs (process fdk) { handle := h } w

theorem state_peak :
    (Mealy.state (process fdk) { handle := h } w).peak =
      peakOf ((leftOver (outcomes fdk h w)).flatMap samples) := by
  induction w using List.reverseRecOn with
  | nil => rfl
  | append_singleton w superframe ih =>
    have hstep := (process_cases fdk ih superframe).1
    unfold outcomes leftOver at hstep ⊢
    rw [Mealy.state_append, Mealy.outputs_append, List.foldl_append]
    exact hstep

theorem levels_eq {i : ℕ} {levels : Peak} {frames : List (List UInt8)}
    (hi : (outcomes fdk h w)[i]? = some (.decoded levels frames)) :
    levels = peakOf ((leftOver ((outcomes fdk h w).take i)).flatMap samples ++
      frames.flatMap samples) := by
  unfold outcomes at hi ⊢
  rw [Mealy.outputs_getElem?, Option.map_eq_some_iff] at hi
  obtain ⟨superframe, -, hstep⟩ := hi
  rw [Mealy.outputs_take]
  exact (process_cases fdk (state_peak fdk h (w.take i)) superframe).2 levels frames hstep

end Run

/-- A library that decodes a loud buffer, fails once, and then decodes silence. -/
def interruptedFdk : Fdk ℕ where
  configRaw n _ := (0, n)
  fill n _ _ _ := (0, 0, n)
  decodeFrame n _ := (if n = 1 then 1 else 0, if n = 0 then [0xFF, 0x7F] else [], n + 1)

def twoSuperframes : List Superframe :=
  List.replicate 2
    { numOutBytes := 120
      outbuf := fun i => [0, 0, 0, 1, 0, 0x20, 3].getD i 0 }

/-- The levels are those of the superframe's own samples, if it was decoded. -/
def Outcome.own : Outcome → Bool
  | .decoded levels frames => levels = peakOf (frames.flatMap samples)
  | _ => true

end SourceCompanion.AACDecoder
