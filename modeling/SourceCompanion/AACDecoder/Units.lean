import SourceCompanion.AACDecoder.Slices

/-! # What is handed to the decoder library

The sizes of the access units are unsigned differences of neighbouring starts, less the two bytes of
the CRC. The check of the order lets through neighbours that are closer than that.
-/

namespace SourceCompanion.AACDecoder

open Recorded

variable {H : Type}

/-- The access units handed to the decoder library, with their starts and sizes. -/
def handedOf (events : List Event) : List (ℤ × ℕ) :=
  events.filterMap fun
    | .handed start len => some (start, len)
    | _ => none

def unit (auStart : ℕ → ℤ) (i : ℕ) : ℤ × ℕ := (auStart i, auLen (auStart i) (auStart (i + 1)))

/-- The superframe passes the check of the order. -/
def Ordered (layout : Layout) : Prop := ∀ i < layout.aus, layout.auStart i < layout.auStart (i + 1)

/-- The units lie one after the other in a buffer, each with its two bytes of CRC before the next
start. -/
structure Separate (auStart : ℕ → ℤ) (len : ℕ) (units : List (ℤ × ℕ)) : Prop where
  each : ∀ (i : ℕ) (u : ℤ × ℕ), units[i]? = some u →
    0 ≤ u.1 ∧ u.1 = auStart i ∧ u.1 + u.2 + 2 = auStart (i + 1) ∧ auStart (i + 1) ≤ len
  disjoint : units.Pairwise fun u v : ℤ × ℕ => u.1 + u.2 + 2 ≤ v.1

theorem toInt32_le (n : ℕ) : toInt32 n ≤ n ∧ toInt32 n < 2 ^ 31 := by
  unfold toInt32 Int.bmod
  dsimp only
  split <;> omega

theorem auLen_eq_iff {start next : ℤ} (h : start < next) (h0 : 0 ≤ start) (hlt : next < 2 ^ 31) :
    start + auLen start next + 2 = next ↔ next ≠ start + 1 := by
  have hmod : (next - start - 2) % 2 ^ 64 =
      if next = start + 1 then 2 ^ 64 - 1 else next - start - 2 := by
    split
    · rename_i hnext
      rw [hnext]
      omega
    · apply Int.emod_eq_of_lt <;> omega
  unfold auLen
  rw [hmod]
  split
  · rename_i hnext
    simp [hnext]
    omega
  · omega

section Starts

variable {data : ℕ → UInt8} {len : ℕ}

theorem auStart_zero (data : ℕ → UInt8) (len : ℕ) : 0 ≤ (layoutOf data len).auStart 0 := by
  have hstart (dacRate sbrFlag : Bool) : 0 ≤ startsOf dacRate sbrFlag data len 0 := by
    unfold startsOf
    cases dacRate <;> cases sbrFlag <;> exact Int.natCast_nonneg _
  exact hstart _ _

theorem auStart_aus (data : ℕ → UInt8) (len : ℕ) :
    (layoutOf data len).auStart (layoutOf data len).aus = toInt32 len := by
  simp only [layoutOf, Layout.aus, startsOf, Function.update_self]

theorem auStart_le (h : Ordered (layoutOf data len)) {i j : ℕ} (hij : i ≤ j)
    (hj : j ≤ (layoutOf data len).aus) :
    (layoutOf data len).auStart i ≤ (layoutOf data len).auStart j := by
  induction j, hij using Nat.le_induction with
  | base => exact le_rfl
  | succ j _ ih => exact (ih (Nat.le_of_succ_le hj)).trans (h j hj).le

end Starts

section Handed

variable {data : ℕ → UInt8} {auStart : ℕ → ℤ}

theorem handedOf_append (v w : List Event) : handedOf (v ++ w) = handedOf v ++ handedOf w :=
  List.filterMap_append

theorem handedOf_of_touches {dacRate sbrFlag : Bool} {v : List Event}
    (h : ∀ e ∈ v, Touches dacRate sbrFlag e) : handedOf v = [] := by
  apply List.filterMap_eq_nil_iff.mpr
  intro e he
  cases e with
  | handed start len => exact (h _ he).elim
  | _ => rfl

theorem checkOrder_forEach (is : List ℕ) (h : ∀ i ∈ is, auStart i < auStart (i + 1))
    (s : AACDecoder H) :
    ∃ v, forEach (checkOrder auStart) is s = (.ok (), s, v) ∧ handedOf v = [] := by
  induction is with
  | nil => exact ⟨[], rfl, rfl⟩
  | cons i is ih =>
    obtain ⟨v, hrest, hv⟩ := ih fun j hj => h j (List.mem_cons_of_mem i hj)
    have hcheck : checkOrder auStart i s = (.ok (), s, [.auStart i, .auStart (i + 1)]) := by
      rw [checkOrder_apply, if_pos (h i List.mem_cons_self)]
    refine ⟨[.auStart i, .auStart (i + 1)] ++ v, ?_, ?_⟩
    · exact (bind_of_ok hcheck).trans (by rw [hrest])
    · exact hv

theorem handedOf_slice (fdk : Fdk H) (data : ℕ → UInt8) (auStart : ℕ → ℤ) (i : ℕ)
    (s : AACDecoder H) :
    handedOf (slice fdk data auStart i s).2.2 = [unit auStart i] := by
  rw [slice_apply]
  rcases decodeAu_cases fdk data (auStart i) (auLen (auStart i) (auStart (i + 1))) s with
    ⟨what, s', hrun, -⟩ | ⟨output, s', hrun, -⟩
  · rw [hrun]
    rfl
  · rw [hrun]
    rfl

theorem handedOf_forEach_slice (fdk : Fdk H) (data : ℕ → UInt8) (is : List ℕ)
    (s : AACDecoder H) :
    ∃ rest, handedOf (forEach (slice fdk data auStart) is s).2.2 ++ rest =
        is.map (unit auStart) ∧
      ((forEach (slice fdk data auStart) is s).1 = .ok () → rest = []) := by
  induction is generalizing s with
  | nil => exact ⟨[], rfl, fun _ => rfl⟩
  | cons i is ih =>
    have hslice := handedOf_slice fdk data auStart i s
    rcases hrun : slice fdk data auStart i s with ⟨_ | _, s', v⟩
    · rw [hrun] at hslice
      have hall : forEach (slice fdk data auStart) (i :: is) s = _ := bind_of_error hrun
      rw [hall]
      refine ⟨is.map (unit auStart), ?_, ?_⟩
      · rw [hslice]
        rfl
      · exact fun h => nomatch h
    · rw [hrun] at hslice
      have hall : forEach (slice fdk data auStart) (i :: is) s = _ := bind_of_ok hrun
      rw [hall]
      obtain ⟨rest, hrest, hok⟩ := ih s'
      refine ⟨rest, ?_, hok⟩
      rw [handedOf_append, hslice, List.append_assoc, hrest]
      rfl

theorem handedOf_decodeUnits (fdk : Fdk H) {layout : Layout} (h : Ordered layout)
    (s : AACDecoder H) :
    ∃ rest, handedOf (decodeUnits fdk data layout s).2.2 ++ rest =
        (List.range layout.aus).map (unit layout.auStart) ∧
      ((decodeUnits fdk data layout s).1 = .ok () → rest = []) := by
  obtain ⟨v, hcheck, hv⟩ :=
    checkOrder_forEach (List.range layout.aus) (fun i hi => h i (List.mem_range.mp hi)) s
  have hunits : decodeUnits fdk data layout s = _ := bind_of_ok hcheck
  have hset := (setUp_cases fdk layout s).1
  rw [hunits]
  rcases hrun : setUp fdk layout s with ⟨_ | _, s', w⟩
  · rw [hrun] at hset
    rw [bind_of_error hrun]
    refine ⟨(List.range layout.aus).map (unit layout.auStart), ?_, ?_⟩
    · rw [handedOf_append, hv, hset]
      rfl
    · exact fun h => nomatch h
  · rw [hrun] at hset
    rw [bind_of_ok hrun]
    obtain ⟨rest, hrest, hok⟩ :=
      handedOf_forEach_slice fdk data (List.range layout.aus) s'
    refine ⟨rest, ?_, hok⟩
    obtain rfl : w = [] := hset
    rw [handedOf_append, hv]
    exact hrest

theorem handedOf_decodeFrame (fdk : Fdk H) {len : ℕ} (h : Ordered (layoutOf data len))
    (s : AACDecoder H) :
    ∃ rest, handedOf (decodeFrame fdk data len s).2.2 ++ rest =
        (List.range (layoutOf data len).aus).map (unit (layoutOf data len).auStart) ∧
      ((decodeFrame fdk data len s).1 = .ok () → rest = []) := by
  obtain ⟨accesses, hframe, htouches, -⟩ := decodeFrame_apply fdk data len s
  rw [hframe, handedOf_append, handedOf_of_touches htouches]
  exact handedOf_decodeUnits fdk h s

end Handed

section Separate

variable {data : ℕ → UInt8} {len : ℕ}

theorem unit_separate_iff (h : Ordered (layoutOf data len)) {i : ℕ}
    (hi : i < (layoutOf data len).aus) :
    (unit (layoutOf data len).auStart i).1 + (unit (layoutOf data len).auStart i).2 + 2 =
        (layoutOf data len).auStart (i + 1) ↔
      (layoutOf data len).auStart (i + 1) ≠ (layoutOf data len).auStart i + 1 := by
  apply auLen_eq_iff (h i hi)
  · exact (auStart_zero data len).trans (auStart_le h (Nat.zero_le i) hi.le)
  · apply (auStart_le h hi le_rfl).trans_lt
    rw [auStart_aus]
    exact (toInt32_le len).2

/-- Units with room for their CRC are separate, also the first few of them. -/
theorem separate_of_prefix (h : Ordered (layoutOf data len))
    (hroom : ∀ i < (layoutOf data len).aus,
      (layoutOf data len).auStart (i + 1) ≠ (layoutOf data len).auStart i + 1)
    {units rest : List (ℤ × ℕ)} (hunits : units ++ rest =
      (List.range (layoutOf data len).aus).map (unit (layoutOf data len).auStart)) :
    Separate (layoutOf data len).auStart len units where
  each := by
    intro i u hu
    have hget : ((List.range (layoutOf data len).aus).map
        (unit (layoutOf data len).auStart))[i]? = some u := by
      rw [← hunits]
      exact (List.getElem?_append_left (List.getElem?_eq_some_iff.mp hu).1).trans hu
    obtain ⟨hi, hval⟩ := List.getElem?_eq_some_iff.mp hget
    rw [List.length_map, List.length_range] at hi
    rw [List.getElem_map, List.getElem_range] at hval
    subst hval
    refine ⟨?_, rfl, (unit_separate_iff h hi).mpr (hroom i hi), ?_⟩
    · exact (auStart_zero data len).trans (auStart_le h (Nat.zero_le i) hi.le)
    · apply (auStart_le h hi le_rfl).trans
      rw [auStart_aus]
      exact (toInt32_le len).1
  disjoint := by
    have hall : ((List.range (layoutOf data len).aus).map
        (unit (layoutOf data len).auStart)).Pairwise
        fun u v : ℤ × ℕ => u.1 + u.2 + 2 ≤ v.1 := by
      apply List.pairwise_map.mpr
      apply List.Pairwise.imp_of_mem _ List.pairwise_lt_range
      intro i j hi hj hij
      rw [(unit_separate_iff h (List.mem_range.mp hi)).mpr (hroom i (List.mem_range.mp hi))]
      exact auStart_le h hij (List.mem_range.mp hj).le
    rw [← hunits] at hall
    exact (List.pairwise_append.mp hall).1

theorem forEach_slice_silent (auStart : ℕ → ℤ) (is : List ℕ) (s : AACDecoder Unit) :
    (forEach (slice silentFdk data auStart) is s).1 = .ok () := by
  induction is generalizing s with
  | nil => rfl
  | cons i is ih => exact ih _

theorem handedOf_silent (h : Ordered (layoutOf data len)) :
    handedOf (decodeFrame silentFdk data len { handle := () }).2.2 =
      (List.range (layoutOf data len).aus).map (unit (layoutOf data len).auStart) := by
  obtain ⟨rest, hrest, hok⟩ := handedOf_decodeFrame silentFdk h { handle := () }
  have hnil : rest = [] := by
    apply hok
    obtain ⟨accesses, hframe, -⟩ := decodeFrame_apply silentFdk data len { handle := () }
    obtain ⟨v, hcheck, -⟩ := checkOrder_forEach (List.range (layoutOf data len).aus)
      (fun i hi => h i (List.mem_range.mp hi)) { handle := () }
    have hunits : decodeUnits silentFdk data (layoutOf data len) { handle := () } = _ :=
      bind_of_ok hcheck
    rw [hframe, hunits]
    exact forEach_slice_silent _ _ _
  rw [hnil, List.append_nil] at hrest
  exact hrest

/-- The units that are handed over are separate for every library, exactly if no start comes right
after the start before it. -/
theorem separate_iff (h : Ordered (layoutOf data len)) :
    (∀ (H : Type) (fdk : Fdk H) (s : AACDecoder H),
      Separate (layoutOf data len).auStart len (handedOf (decodeFrame fdk data len s).2.2)) ↔
      ∀ i < (layoutOf data len).aus,
        (layoutOf data len).auStart (i + 1) ≠ (layoutOf data len).auStart i + 1 := by
  constructor
  · intro hseparate i hi
    apply (unit_separate_iff h hi).mp
    have hget : (handedOf (decodeFrame silentFdk data len { handle := () }).2.2)[i]? =
        some (unit (layoutOf data len).auStart i) := by
      rw [handedOf_silent h, List.getElem?_map, List.getElem?_range hi]
      rfl
    exact ((hseparate Unit silentFdk { handle := () }).each i _ hget).2.2.1
  · intro hroom H fdk s
    obtain ⟨rest, hrest, -⟩ := handedOf_decodeFrame fdk h s
    exact separate_of_prefix h hroom hrest

end Separate

instance (layout : Layout) : Decidable (Ordered layout) :=
  inferInstanceAs (Decidable (∀ i < layout.aus, layout.auStart i < layout.auStart (i + 1)))

def twoUnits (second : UInt8) (i : ℕ) : UInt8 :=
  if i = 2 then 0x20 else if i = 4 then second <<< 4 else 0

/-- A unit of one byte is handed over with a size that wrapped, and is not inside the buffer. -/
theorem separate_fails :
    Ordered (layoutOf (twoUnits 6) 110) ∧
      ¬ Separate (layoutOf (twoUnits 6) 110).auStart 110
        (handedOf (decodeFrame silentFdk (twoUnits 6) 110 { handle := () }).2.2) := by
  constructor
  · decide +kernel
  · intro h
    have hget : (handedOf (decodeFrame silentFdk (twoUnits 6) 110 { handle := () }).2.2)[0]? =
        some (5, 2 ^ 64 - 1) := by decide +kernel
    obtain ⟨-, -, hend, hin⟩ := h.each 0 _ hget
    omega

theorem separate_room :
    Separate (layoutOf (twoUnits 8) 110).auStart 110
      (handedOf (decodeFrame silentFdk (twoUnits 8) 110 { handle := () }).2.2) :=
  (separate_iff (by decide +kernel)).mpr (by decide +kernel) Unit silentFdk { handle := () }

end SourceCompanion.AACDecoder
