import SourceCompanion.AACDecoder.Basic

/-! # The access units of a superframe

The starts of the access units are read from the header, and the end of the superframe is stored
behind them. The check of their order decides which units are cut out, and the places that are
accessed on the way follow from the number of units alone.
-/

namespace SourceCompanion.AACDecoder

open Recorded

variable {H : Type}

def startIf (condition : Bool) (i : ℕ) (start : ℤ) (auStart : ℕ → ℤ) : ℕ → ℤ :=
  if condition then Function.update auStart i start else auStart

def startsOf (dacRate sbrFlag : Bool) (data : ℕ → UInt8) (len : ℕ) : ℕ → ℤ :=
  let numAus := Layout.numAus dacRate sbrFlag
  let auStart := Function.update (fun _ => 0) 0 (Layout.firstStart dacRate sbrFlag : ℤ)
  let auStart := Function.update auStart 1 (high12 (data 3) (data 4))
  let auStart := startIf (numAus ≥ 3) 2 (low12 (data 4) (data 5)) auStart
  let auStart := startIf (numAus ≥ 4) 3 (high12 (data 6) (data 7)) auStart
  let auStart := startIf (numAus = 6) 4 (low12 (data 7) (data 8)) auStart
  let auStart := startIf (numAus = 6) 5 (high12 (data 9) (data 10)) auStart
  Function.update auStart numAus (toInt32 len)

/-- An access to the header, or to one of the starts or the end marker. -/
def Touches (dacRate sbrFlag : Bool) : Event → Prop
  | .data i => i < Layout.firstStart dacRate sbrFlag
  | .auStart i => i ≤ Layout.numAus dacRate sbrFlag
  | .handed .. => False
  | .decoded _ => False

instance (dacRate sbrFlag : Bool) : DecidablePred (Touches dacRate sbrFlag)
  | .data i => inferInstanceAs (Decidable (i < Layout.firstStart dacRate sbrFlag))
  | .auStart i => inferInstanceAs (Decidable (i ≤ Layout.numAus dacRate sbrFlag))
  | .handed .. => inferInstanceAs (Decidable False)
  | .decoded _ => inferInstanceAs (Decidable False)

theorem readStarts_apply (dacRate sbrFlag : Bool) (data : ℕ → UInt8) (len : ℕ)
    (s : AACDecoder H) :
    ∃ accesses, readStarts dacRate sbrFlag data len s =
        (.ok (startsOf dacRate sbrFlag data len), s, accesses) ∧
      (∀ e ∈ accesses, Touches dacRate sbrFlag e) ∧
      .auStart (Layout.numAus dacRate sbrFlag) ∈ accesses := by
  cases dacRate <;> cases sbrFlag
  · exact ⟨[.auStart 0, .data 3, .data 4, .auStart 1, .data 4, .data 5, .auStart 2, .data 6,
      .data 7, .auStart 3, .auStart 4], rfl, by decide, by decide⟩
  · exact ⟨[.auStart 0, .data 3, .data 4, .auStart 1, .auStart 2], rfl, by decide, by decide⟩
  · exact ⟨[.auStart 0, .data 3, .data 4, .auStart 1, .data 4, .data 5, .auStart 2, .data 6,
      .data 7, .auStart 3, .data 7, .data 8, .auStart 4, .data 9, .data 10, .auStart 5,
      .auStart 6], rfl, by decide, by decide⟩
  · exact ⟨[.auStart 0, .data 3, .data 4, .auStart 1, .data 4, .data 5, .auStart 2, .auStart 3],
      rfl, by decide, by decide⟩

def layoutOf (data : ℕ → UInt8) (len : ℕ) : Layout where
  dacRate := data 2 &&& 0x40 ≠ 0
  sbrFlag := data 2 &&& 0x20 ≠ 0
  aacChannelMode := data 2 &&& 0x10 ≠ 0
  psFlag := data 2 &&& 0x08 ≠ 0
  auStart := startsOf (data 2 &&& 0x40 ≠ 0) (data 2 &&& 0x20 ≠ 0) data len

theorem readLayout_apply (data : ℕ → UInt8) (len : ℕ) (s : AACDecoder H) :
    ∃ accesses, readLayout data len s = (.ok (layoutOf data len), s, accesses) ∧
      (∀ e ∈ accesses, Touches (layoutOf data len).dacRate (layoutOf data len).sbrFlag e) ∧
      .auStart (layoutOf data len).aus ∈ accesses := by
  obtain ⟨accesses, hstarts, htouches, hmarker⟩ :=
    readStarts_apply (data 2 &&& 0x40 ≠ 0) (data 2 &&& 0x20 ≠ 0) data len s
  refine ⟨[.data 2, .data 2, .data 2, .data 2] ++ accesses, ?_, ?_, ?_⟩
  · simp only [readLayout, readData, bind_apply, pure_apply, emit_apply, hstarts, List.append_nil]
    rfl
  · intro e he
    rcases List.mem_append.mp he with he | he
    · have hheader (dacRate sbrFlag : Bool) : Touches dacRate sbrFlag (.data 2) := by
        revert dacRate sbrFlag
        decide
      simp only [List.mem_cons, List.not_mem_nil, or_false, or_self] at he
      rw [he]
      exact hheader _ _
    · exact htouches e he
  · exact List.mem_append_right _ hmarker

/-- What decoding an access unit records and does to the peak. -/
theorem decodeAu_cases (fdk : Fdk H) (data : ℕ → UInt8) (start : ℤ) (len : ℕ)
    (s : AACDecoder H) :
    (∃ what s', decodeAu fdk data start len s = (.error what, s', [.handed start len]) ∧
      s'.peak = s.peak) ∨
    ∃ output s', decodeAu fdk data start len s =
        (.ok (), s', [.handed start len, .decoded output]) ∧
      s'.peak = s.peak.follow output := by
  simp only [decodeAu, bind_apply, emit_apply, get_apply, set_apply]
  by_cases hfill : (fdk.fill s.handle data start (len % 2 ^ 32)).1 = 0
  · by_cases hvalid : (fdk.fill s.handle data start (len % 2 ^ 32)).2.1 = 0
    · by_cases hdecode : (fdk.decodeFrame (fdk.fill s.handle data start (len % 2 ^ 32)).2.2
          s.outputFrame.length).1 = 0
      · right
        simp only [hfill, hvalid, hdecode, bind_apply, emit_apply, set_apply, ne_eq,
          not_true_eq_false, if_false]
        exact ⟨_, _, rfl, rfl⟩
      · left
        simp only [hfill, hvalid, hdecode, bind_apply, stop_apply, set_apply, ne_eq,
          not_true_eq_false, not_false_eq_true, if_false, if_true]
        exact ⟨_, _, rfl, rfl⟩
    · left
      simp only [hfill, hvalid, bind_apply, stop_apply, ne_eq, not_true_eq_false,
        not_false_eq_true, if_false, if_true]
      exact ⟨_, _, rfl, rfl⟩
  · left
    simp only [hfill, bind_apply, stop_apply, ne_eq, not_false_eq_true, if_true]
    exact ⟨_, _, rfl, rfl⟩

theorem slice_apply (fdk : Fdk H) (data : ℕ → UInt8) (auStart : ℕ → ℤ) (i : ℕ)
    (s : AACDecoder H) :
    slice fdk data auStart i s =
      ((decodeAu fdk data (auStart i) (auLen (auStart i) (auStart (i + 1))) s).1,
        (decodeAu fdk data (auStart i) (auLen (auStart i) (auStart (i + 1))) s).2.1,
        [.auStart i, .auStart (i + 1), .auStart i] ++
          (decodeAu fdk data (auStart i) (auLen (auStart i) (auStart (i + 1))) s).2.2) := rfl

theorem checkOrder_apply (auStart : ℕ → ℤ) (i : ℕ) (s : AACDecoder H) :
    checkOrder auStart i s =
      (if auStart i < auStart (i + 1) then .ok () else .error "  AU ordering check failed\n", s,
        [.auStart i, .auStart (i + 1)]) := by
  simp only [checkOrder, load, bind_apply, emit_apply, pure_apply]
  by_cases h : auStart i < auStart (i + 1)
  · rw [if_pos h, if_neg (not_le.mpr h)]
    rfl
  · rw [if_neg h, if_pos (not_lt.mp h)]
    rfl

theorem setUp_cases (fdk : Fdk H) (layout : Layout) (s : AACDecoder H) :
    (setUp fdk layout s).2.2 = [] ∧ (setUp fdk layout s).2.1.peak = s.peak := by
  simp only [setUp, bind_apply, get_apply]
  by_cases hset : s.decoderSetUp
  · simp only [hset, if_true, pure_apply, List.append_nil, and_self]
  · by_cases hinit : (fdk.configRaw s.handle (audioSpecificConfig layout)).1 = 0
    · simp only [hset, hinit, set_apply, ne_eq, not_true_eq_false, if_false, Bool.false_eq_true,
        List.append_nil, and_self]
    · simp only [hset, hinit, bind_apply, stop_apply, set_apply, ne_eq, not_false_eq_true,
        if_true, if_false, Bool.false_eq_true, List.append_nil, and_self]

section Keeps

variable {R : AACDecoder H → List Event → AACDecoder H → Prop} (hR : Composes R) {numAus i : ℕ}
  {auStart : ℕ → ℤ} (hload : ∀ i ≤ numAus, Keeps R (load auStart i))

include hR hload

theorem keeps_checkOrder (hi : i < numAus) : Keeps R (checkOrder auStart i) := by
  unfold checkOrder
  apply keeps_bind hR (hload i hi.le)
  intro start
  apply keeps_bind hR (hload (i + 1) hi)
  intro next
  split
  · exact keeps_stop hR _
  · exact keeps_pure hR _

theorem keeps_slice {fdk : Fdk H} {data : ℕ → UInt8} (hi : i < numAus)
    (hdecode : ∀ start len, Keeps R (decodeAu fdk data start len)) :
    Keeps R (slice fdk data auStart i) := by
  unfold slice
  apply keeps_bind hR (hload i hi.le)
  intro auData
  apply keeps_bind hR (hload (i + 1) hi)
  intro next
  apply keeps_bind hR (hload i hi.le)
  exact fun start => hdecode auData _

omit hload in
theorem keeps_decodeUnits {fdk : Fdk H} {data : ℕ → UInt8} {layout : Layout}
    (hload : ∀ i ≤ layout.aus, Keeps R (load layout.auStart i)) (hset : Keeps R (setUp fdk layout))
    (hdecode : ∀ start len, Keeps R (decodeAu fdk data start len)) :
    Keeps R (decodeUnits fdk data layout) := by
  unfold decodeUnits
  refine keeps_bind hR (keeps_forEach hR _ ?_) fun _ =>
    keeps_bind hR hset fun _ => keeps_forEach hR _ ?_
  · exact fun i hi => keeps_checkOrder hR hload (List.mem_range.mp hi)
  · exact fun i hi => keeps_slice hR hload (List.mem_range.mp hi) hdecode

end Keeps

/-- After the header only the starts and the end marker are accessed. -/
def Later (numAus : ℕ) : Event → Prop
  | .data _ => False
  | .auStart i => i ≤ numAus
  | .handed .. => True
  | .decoded _ => True

section Later

variable {numAus i : ℕ} {auStart : ℕ → ℤ}

theorem later_load (hi : i ≤ numAus) : Keeps (Only (Later numAus)) (load (H := H) auStart i) := by
  intro s e he
  obtain rfl := List.mem_singleton.mp he
  exact hi

theorem later_decodeAu (fdk : Fdk H) (data : ℕ → UInt8) (start : ℤ) (len : ℕ) :
    Keeps (Only (Later numAus)) (decodeAu fdk data start len) := by
  intro s e he
  rcases decodeAu_cases fdk data start len s with ⟨what, s', hrun, -⟩ | ⟨output, s', hrun, -⟩
  · rw [hrun] at he
    obtain rfl := List.mem_singleton.mp he
    trivial
  · rw [hrun] at he
    simp only [List.mem_cons, List.not_mem_nil, or_false] at he
    rcases he with rfl | rfl <;> trivial

theorem later_setUp (fdk : Fdk H) (layout : Layout) :
    Keeps (Only (Later numAus)) (setUp fdk layout) := by
  intro s
  rw [(setUp_cases fdk layout s).1]
  exact (composes_only _).refl s

theorem later_decodeUnits (fdk : Fdk H) (data : ℕ → UInt8) (layout : Layout) :
    Keeps (Only (Later layout.aus)) (decodeUnits fdk data layout) := by
  refine keeps_decodeUnits (composes_only _) ?_ ?_ ?_
  · exact fun i hi => later_load hi
  · exact later_setUp fdk layout
  · exact later_decodeAu fdk data

end Later

theorem decodeFrame_apply (fdk : Fdk H) (data : ℕ → UInt8) (len : ℕ) (s : AACDecoder H) :
    ∃ accesses, decodeFrame fdk data len s =
        ((decodeUnits fdk data (layoutOf data len) s).1,
          (decodeUnits fdk data (layoutOf data len) s).2.1,
          accesses ++ (decodeUnits fdk data (layoutOf data len) s).2.2) ∧
      (∀ e ∈ accesses, Touches (layoutOf data len).dacRate (layoutOf data len).sbrFlag e) ∧
      .auStart (layoutOf data len).aus ∈ accesses := by
  obtain ⟨accesses, hlayout, htouches, hmarker⟩ := readLayout_apply data len s
  exact ⟨accesses, bind_of_ok hlayout, htouches, hmarker⟩

theorem firstStart_le (dacRate sbrFlag : Bool) : Layout.firstStart dacRate sbrFlag ≤ 11 := by
  revert dacRate sbrFlag
  decide

theorem numAus_lt_iff (dacRate sbrFlag : Bool) :
    Layout.numAus dacRate sbrFlag < auStartSize ↔ ¬(dacRate = true ∧ sbrFlag = false) := by
  revert dacRate sbrFlag
  decide

/-- An access inside the array of the starts as declared, or inside the header. -/
def Inside (firstStart len : ℕ) : Event → Prop
  | .data i => i < firstStart ∧ i < len
  | .auStart i => i < auStartSize
  | .handed .. => True
  | .decoded _ => True

/-- No execution leaves the array or the header, exactly if there are fewer than six access units,
which is unless the DAC rate is set without SBR. -/
theorem inside_iff (fdk : Fdk H) (data : ℕ → UInt8) {len : ℕ} (hlen : 11 ≤ len)
    (s : AACDecoder H) :
    (∀ e ∈ (decodeFrame fdk data len s).2.2,
      Inside (Layout.firstStart (layoutOf data len).dacRate (layoutOf data len).sbrFlag) len e) ↔
      ¬((layoutOf data len).dacRate = true ∧ (layoutOf data len).sbrFlag = false) := by
  obtain ⟨accesses, hframe, htouches, hmarker⟩ := decodeFrame_apply fdk data len s
  rw [hframe, ← numAus_lt_iff]
  constructor
  · exact fun h => h _ (List.mem_append_left _ hmarker)
  · intro hsmall e he
    rcases List.mem_append.mp he with he | he
    · have htouch := htouches e he
      cases e with
      | data i =>
        exact ⟨htouch, (Nat.lt_of_lt_of_le htouch (firstStart_le _ _)).trans_le hlen⟩
      | auStart i => exact Nat.lt_of_le_of_lt htouch hsmall
      | _ => trivial
    · have hlater := later_decodeUnits fdk data (layoutOf data len) s e he
      cases e with
      | data i => exact hlater.elim
      | auStart i => exact Nat.lt_of_le_of_lt hlater hsmall
      | _ => trivial

def silentFdk : Fdk Unit where
  configRaw _ _ := (0, ())
  fill _ _ _ _ := (0, 0, ())
  decodeFrame _ _ := (0, [], ())

/-- A superframe of 48 kHz without SBR stores the end marker behind the array. -/
theorem marker_outside :
    ¬ ∀ e ∈ (decodeFrame silentFdk (fun i => if i = 2 then 0x40 else 0) 110 { handle := () }).2.2,
      Inside 11 110 e := by
  intro h
  exact lt_irrefl 6 (h (.auStart 6) (by decide))

theorem inside_lowRate :
    (.handed 48 60 ∈ (decodeFrame silentFdk (fun i => if i = 2 then 0x20 else i.toUInt8) 110
      { handle := () }).2.2) ∧
    ∀ e ∈ (decodeFrame silentFdk (fun i => if i = 2 then 0x20 else i.toUInt8) 110
      { handle := () }).2.2, Inside 5 110 e :=
  ⟨by decide +kernel,
    (inside_iff silentFdk (fun i => if i = 2 then 0x20 else i.toUInt8) (by decide)
      { handle := () }).mpr (by decide)⟩

end SourceCompanion.AACDecoder
