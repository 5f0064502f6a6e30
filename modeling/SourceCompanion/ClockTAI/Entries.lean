import Mathlib.Data.List.Infix
import SourceCompanion.ClockTAI.Bulletin

/-! # The entries of a bulletin

An entry is a line with a time stamp, an offset and a comment. The search for one in a line finds
it exactly if there is one, and the offset that is read from a bulletin is the one of the last entry
before the present.
-/

namespace SourceCompanion.ClockTAI

open Bytes

/-- Some characters, all of one class. -/
def IsRun (p : UInt8 → Bool) (s : List UInt8) : Prop := s ≠ [] ∧ ∀ c ∈ s, p c = true

instance (p : UInt8 → Bool) (s : List UInt8) : Decidable (IsRun p s) :=
  inferInstanceAs (Decidable (s ≠ [] ∧ ∀ c ∈ s, p c = true))

structure Entry where
  timestamp : List UInt8
  spaces : List UInt8
  offset : List UInt8
  spacesAfter : List UInt8
  comment : List UInt8
  timestamp_run : IsRun isDigit timestamp
  spaces_run : IsRun isSpace spaces
  offset_run : IsRun isDigit offset
  spacesAfter_run : IsRun isSpace spacesAfter

namespace Entry

def text (e : Entry) : List UInt8 :=
  e.timestamp ++ (e.spaces ++ (e.offset ++ (e.spacesAfter ++ 0x23 :: e.comment)))

def timestampUnix (e : Entry) : ℤ := decimal e.timestamp - ntpUnixOffset

/-- The numbers of an entry are within the range of their types. -/
def InRange (e : Entry) : Prop := decimal e.timestamp < 2 ^ 63 ∧ decimal e.offset < 2 ^ 31

end Entry

inductive Line where
  | entry (e : Entry)
  | other (text : List UInt8) (h : ∀ e : Entry, ¬ e.text <:+: text)

namespace Line

def text : Line → List UInt8
  | entry e => e.text
  | other text _ => text

def entry? : Line → Option Entry
  | entry e => some e
  | other _ _ => none

end Line

def entries (lines : List Line) : List Entry := lines.filterMap Line.entry?

/-- The lines of a bulletin whose entries are in order. -/
structure Ordered (bulletin : List UInt8) (lines : List Line) : Prop where
  getlines : getlines bulletin = lines.map Line.text
  increasing : (entries lines).Pairwise fun e f => decimal e.timestamp < decimal f.timestamp
  inRange : ∀ e ∈ entries lines, e.InRange

def entriesBefore (now : ℤ) (lines : List Line) : List Entry :=
  (entries lines).filter fun e => e.timestampUnix < now

/-- The entry with the greatest time stamp before the present. -/
structure Latest (now : ℤ) (lines : List Line) (e : Entry) : Prop where
  mem : e ∈ entriesBefore now lines
  greatest : ∀ f ∈ entriesBefore now lines, decimal f.timestamp ≤ decimal e.timestamp

/-! ## The pattern -/

section Pattern

variable {p : UInt8 → Bool} {s rest : List UInt8}

theorem takeWhile_run (h : IsRun p s) (hrest : ∀ c ∈ rest.head?, p c = false) :
    (s ++ rest).takeWhile p = s := by
  rw [List.takeWhile_append_of_pos h.2]
  cases rest with
  | nil => simp
  | cons c rest => rw [List.takeWhile_cons_of_neg (by simp [hrest c rfl]), List.append_nil]

theorem dropWhile_run (h : IsRun p s) (hrest : ∀ c ∈ rest.head?, p c = false) :
    (s ++ rest).dropWhile p = rest := by
  rw [List.dropWhile_append_of_pos h.2]
  cases rest with
  | nil => simp
  | cons c rest => rw [List.dropWhile_cons_of_neg (by simp [hrest c rfl])]

theorem isRun_takeWhile (h : s.takeWhile p ≠ []) : IsRun p (s.takeWhile p) :=
  ⟨h, List.all_eq_true.mp List.all_takeWhile⟩

theorem IsRun.head {c : UInt8} (h : IsRun p s) (hc : c ∈ (s ++ rest).head?) : p c = true := by
  cases s with
  | nil => exact absurd rfl h.1
  | cons d s =>
    obtain rfl : d = c := Option.some.inj hc
    exact h.2 d List.mem_cons_self

theorem isDigit_eq_false {c : UInt8} (h : isSpace c = true) : isDigit c = false := by
  simp only [isSpace, isDigit, Bool.or_eq_true, Bool.and_eq_true, decide_eq_true_eq,
    Bool.and_eq_false_imp, decide_eq_false_iff_not] at h ⊢
  rintro hdigit -
  rcases h with rfl | ⟨-, h⟩
  · exact absurd hdigit (by decide)
  · exact absurd (UInt8.le_trans hdigit h) (by decide)

theorem isSpace_eq_false {c : UInt8} (h : isDigit c = true) : isSpace c = false := by
  rcases hspace : isSpace c with _ | _
  · rfl
  · exact absurd h (Bool.eq_false_iff.mp (isDigit_eq_false hspace))

theorem matchDigits_run (h : IsRun isDigit s) (hrest : ∀ c ∈ rest.head?, isDigit c = false) :
    matchDigits (s ++ rest) = some (s, rest) := by
  rw [matchDigits, takeWhile_run h hrest, dropWhile_run h hrest, if_neg h.1]

theorem matchSpaces_run (h : IsRun isSpace s) (hrest : ∀ c ∈ rest.head?, isSpace c = false) :
    matchSpaces (s ++ rest) = some rest := by
  rw [matchSpaces, takeWhile_run h hrest, dropWhile_run h hrest, if_neg h.1]

theorem exists_run_of_matchDigits {digits : List UInt8}
    (h : matchDigits s = some (digits, rest)) : IsRun isDigit digits ∧ s = digits ++ rest := by
  unfold matchDigits at h
  split_ifs at h with hrun
  obtain ⟨rfl, rfl⟩ := Prod.mk.inj (Option.some.inj h)
  exact ⟨isRun_takeWhile hrun, List.takeWhile_append_dropWhile.symm⟩

theorem exists_run_of_matchSpaces (h : matchSpaces s = some rest) :
    ∃ spaces, IsRun isSpace spaces ∧ s = spaces ++ rest := by
  unfold matchSpaces at h
  split_ifs at h with hrun
  obtain rfl := Option.some.inj h
  exact ⟨_, isRun_takeWhile hrun, List.takeWhile_append_dropWhile.symm⟩

end Pattern

theorem matchBulletinEntry_text (e : Entry) :
    matchBulletinEntry e.text = some (e.timestamp, e.offset) := by
  have hhash : isSpace 0x23 = false := by decide
  rw [matchBulletinEntry, Entry.text,
    matchDigits_run e.timestamp_run fun c hc => isDigit_eq_false (e.spaces_run.head hc),
    Option.bind_eq_bind, Option.bind_some]
  dsimp only
  rw [matchSpaces_run e.spaces_run fun c hc => isSpace_eq_false (e.offset_run.head hc),
    Option.bind_eq_bind, Option.bind_some,
    matchDigits_run e.offset_run fun c hc => isDigit_eq_false (e.spacesAfter_run.head hc),
    Option.bind_some]
  dsimp only
  rw [matchSpaces_run e.spacesAfter_run (by rintro c ⟨⟩; exact hhash), Option.bind_some]
  exact if_pos rfl

theorem exists_entry_of_match {s : List UInt8} {numbers : List UInt8 × List UInt8}
    (h : matchBulletinEntry s = some numbers) : ∃ e : Entry, e.text = s := by
  obtain ⟨⟨timestamp, s₁⟩, htimestamp, h⟩ := Option.bind_eq_some_iff.mp h
  obtain ⟨s₂, hspaces, h⟩ := Option.bind_eq_some_iff.mp h
  obtain ⟨⟨offset, s₃⟩, hoffset, h⟩ := Option.bind_eq_some_iff.mp h
  obtain ⟨s₄, hspacesAfter, h⟩ := Option.bind_eq_some_iff.mp h
  split_ifs at h with hhash
  obtain ⟨timestamp_run, rfl⟩ := exists_run_of_matchDigits htimestamp
  obtain ⟨spaces, spaces_run, rfl⟩ := exists_run_of_matchSpaces hspaces
  obtain ⟨offset_run, rfl⟩ := exists_run_of_matchDigits hoffset
  obtain ⟨spacesAfter, spacesAfter_run, rfl⟩ := exists_run_of_matchSpaces hspacesAfter
  obtain ⟨comment, rfl⟩ := List.head?_eq_some_iff.mp hhash
  exact ⟨⟨timestamp, spaces, offset, spacesAfter, comment, timestamp_run, spaces_run, offset_run,
    spacesAfter_run⟩, rfl⟩

/-! ## The search -/

theorem regexSearch_text (e : Entry) :
    regexSearch matchBulletinEntry e.text = some (e.timestamp, e.offset) := by
  have htails : e.text.tails = e.text :: e.text.tails.tail := by
    cases e.text <;> rfl
  rw [regexSearch, htails, List.findSome?_cons, matchBulletinEntry_text]

theorem exists_entry_append (e : Entry) (rest : List UInt8) :
    ∃ f : Entry, f.text = e.text ++ rest :=
  ⟨{ e with comment := e.comment ++ rest }, by simp only [Entry.text, List.append_assoc,
    List.cons_append]⟩

theorem regexSearch_eq_none_iff {line : List UInt8} :
    regexSearch matchBulletinEntry line = none ↔ ∀ e : Entry, ¬ e.text <:+: line := by
  simp only [regexSearch, List.findSome?_eq_none_iff, List.mem_tails]
  constructor
  · rintro h e ⟨before, rest, rfl⟩
    obtain ⟨f, hf⟩ := exists_entry_append e rest
    have hnone := h (e.text ++ rest) ⟨before, (List.append_assoc _ _ _).symm⟩
    rw [← hf, matchBulletinEntry_text] at hnone
    cases hnone
  · intro h s hs
    rcases hmatch : matchBulletinEntry s with _ | numbers
    · rfl
    · obtain ⟨e, rfl⟩ := exists_entry_of_match hmatch
      exact absurd hs.isInfix (h e)

/-! ## The lines -/

variable {now : ℤ} {bulletin : List UInt8} {lines : List Line}

theorem parseLine_entry (now : ℤ) (taiUtcOffset : Option ℤ) {e : Entry} (h : e.InRange) :
    parseLine now taiUtcOffset e.text =
      .ok (if e.timestampUnix < now then some (decimal e.offset : ℤ) else taiUtcOffset) := by
  have hstoll : stoll e.timestamp = .ok (decimal e.timestamp : ℤ) := if_pos h.1
  have hstoi : stoi e.offset = .ok (decimal e.offset : ℤ) := if_pos h.2
  rw [parseLine, regexSearch_text]
  dsimp only
  rw [hstoll, hstoi]
  exact (apply_ite Except.ok _ _ _).symm

theorem parseLine_other (now : ℤ) (taiUtcOffset : Option ℤ) {text : List UInt8}
    (h : ∀ e : Entry, ¬ e.text <:+: text) : parseLine now taiUtcOffset text = .ok taiUtcOffset := by
  rw [parseLine, regexSearch_eq_none_iff.mpr h]

/-- After some lines the offset is the one of the last entry before the present. -/
theorem foldlM_parseLine (now : ℤ) (h : ∀ e ∈ entries lines, e.InRange)
    (taiUtcOffset : Option ℤ) :
    (lines.map Line.text).foldlM (parseLine now) taiUtcOffset =
      .ok (((entriesBefore now lines).getLast?.map fun e => (decimal e.offset : ℤ)).or
        taiUtcOffset) := by
  induction lines generalizing taiUtcOffset with
  | nil => rfl
  | cons line lines ih =>
    rw [List.map_cons, List.foldlM_cons]
    match line with
    | .other text hother =>
      have hentries : entriesBefore now (.other text hother :: lines) = entriesBefore now lines :=
        rfl
      rw [Line.text, parseLine_other now taiUtcOffset hother, hentries]
      exact ih h taiUtcOffset
    | .entry e =>
      have hcons : entries (.entry e :: lines) = e :: entries lines := rfl
      rw [hcons] at h
      obtain ⟨he, h⟩ := List.forall_mem_cons.mp h
      rw [Line.text, parseLine_entry now taiUtcOffset he, entriesBefore, hcons, List.filter_cons]
      refine (ih h _).trans ?_
      by_cases hbefore : e.timestampUnix < now
      · rw [if_pos hbefore, if_pos (decide_eq_true hbefore), List.getLast?_cons, entriesBefore]
        cases ((entries lines).filter fun f => decide (f.timestampUnix < now)).getLast? <;> rfl
      · rw [if_neg hbefore, if_neg (by simpa using hbefore), entriesBefore]

/-! ## The bulletin -/

theorem increasing_entriesBefore (h : Ordered bulletin lines) (now : ℤ) :
    (entriesBefore now lines).Pairwise fun e f => decimal e.timestamp < decimal f.timestamp :=
  h.increasing.filter _

/-- In order, the entry with the greatest time stamp is the last one. -/
theorem latest_iff (h : Ordered bulletin lines) {e : Entry} :
    Latest now lines e ↔ (entriesBefore now lines).getLast? = some e := by
  have hincreasing := increasing_entriesBefore h now
  constructor
  · rintro ⟨hmem, hgreatest⟩
    obtain ⟨init, last, hlast⟩ :=
      (List.eq_nil_or_concat (entriesBefore now lines)).resolve_left (List.ne_nil_of_mem hmem)
    rw [List.concat_eq_append] at hlast
    rw [hlast] at hmem hgreatest hincreasing ⊢
    rw [List.getLast?_concat]
    rcases List.mem_append.mp hmem with hinit | hend
    · have hlt := (List.pairwise_append.mp hincreasing).2.2 e hinit last List.mem_cons_self
      exact absurd (hgreatest last (by simp)) hlt.not_ge
    · rw [List.mem_singleton.mp hend]
  · intro hlast
    obtain ⟨init, hinit⟩ := List.getLast?_eq_some_iff.mp hlast
    refine ⟨List.mem_of_getLast? hlast, ?_⟩
    rw [hinit] at hincreasing ⊢
    intro f hf
    rcases List.mem_append.mp hf with hf | hf
    · exact ((List.pairwise_append.mp hincreasing).2.2 f hf e List.mem_cons_self).le
    · rw [List.mem_singleton.mp hf]

theorem parseIetfBulletin_eq (h : Ordered bulletin lines) (now : ℤ) :
    parseIetfBulletin now bulletin =
      (entriesBefore now lines).getLast?.elim
        (.error (.runtimeError "No data in TAI bulletin")) fun e =>
          if 500 < decimal e.offset then
            .error (.runtimeError "Unreasonable TAI-UTC offset calculated")
          else .ok (decimal e.offset) := by
  rw [parseIetfBulletin, h.getlines, foldlM_parseLine now h.inRange]
  rcases (entriesBefore now lines).getLast? with _ | e
  · rfl
  · have hrange : ((decimal e.offset : ℤ) < 0 ∨ (decimal e.offset : ℤ) > 500) ↔
        500 < decimal e.offset := by omega
    exact if_congr hrange rfl rfl

/-- The offset of a bulletin is the one of the entry with the greatest time stamp before the
present. Reading throws exactly if there is no such entry, or its offset exceeds 500. Nothing else
in the bulletin matters. -/
theorem parseIetfBulletin_latest (h : Ordered bulletin lines) (now : ℤ) :
    (∀ e, Latest now lines e → decimal e.offset ≤ 500 →
        parseIetfBulletin now bulletin = .ok (decimal e.offset)) ∧
      ((∃ error, parseIetfBulletin now bulletin = .error error) ↔
        (∀ e ∈ entries lines, now ≤ e.timestampUnix) ∨
          ∃ e, Latest now lines e ∧ 500 < decimal e.offset) ∧
      ∀ other otherLines, Ordered other otherLines →
        entriesBefore now otherLines = entriesBefore now lines →
          parseIetfBulletin now other = parseIetfBulletin now bulletin := by
  have hnone : (∀ e ∈ entries lines, now ≤ e.timestampUnix) ↔
      (entriesBefore now lines).getLast? = none := by
    simp [entriesBefore]
  refine ⟨fun e hlatest hoffset => ?_, ?_, fun other otherLines hother hsame => ?_⟩
  · rw [parseIetfBulletin_eq h, (latest_iff h).mp hlatest]
    exact if_neg (Nat.not_lt.mpr hoffset)
  · simp only [hnone, latest_iff h]
    rw [parseIetfBulletin_eq h]
    rcases (entriesBefore now lines).getLast? with _ | e
    · exact iff_of_true ⟨_, rfl⟩ (.inl rfl)
    · simp only [Option.elim_some, reduceCtorEq, Option.some.injEq, false_or, exists_eq_left']
      constructor
      · rintro ⟨error, herror⟩
        by_contra hle
        rw [if_neg hle] at herror
        cases herror
      · intro hgt
        exact ⟨_, if_pos hgt⟩
  · rw [parseIetfBulletin_eq h, parseIetfBulletin_eq hother, hsame]

def sampleEntry : Entry where
  timestamp := ascii "3644697600".toList
  spaces := [0x09]
  offset := ascii "36".toList
  spacesAfter := [0x09]
  comment := ascii " 1 Jul 2015".toList
  timestamp_run := by decide +kernel
  spaces_run := by decide +kernel
  offset_run := by decide +kernel
  spacesAfter_run := by decide +kernel

def sampleLines : List Line :=
  [.other (ascii "#@\t3707596800".toList) (regexSearch_eq_none_iff.mp (by decide +kernel)),
    .entry sampleEntry,
    .entry { sampleEntry with
      timestamp := ascii "3692217600".toList
      offset := ascii "37".toList
      comment := ascii " 1 Jan 2017".toList
      timestamp_run := by decide +kernel
      offset_run := by decide +kernel }]

theorem ordered_sample : Ordered sampleBulletin sampleLines where
  getlines := by decide +kernel
  increasing := by decide +kernel
  inRange := by
    have hrange : ∀ e ∈ entries sampleLines,
        decimal e.timestamp < 2 ^ 63 ∧ decimal e.offset < 2 ^ 31 := by decide +kernel
    exact hrange

theorem parseIetfBulletin_sample :
    Ordered sampleBulletin sampleLines ∧ Latest 1483228000 sampleLines sampleEntry ∧
      decimal sampleEntry.offset ≤ 500 ∧
      parseIetfBulletin 1483228000 sampleBulletin = .ok (decimal sampleEntry.offset) := by
  have hlatest : Latest 1483228000 sampleLines sampleEntry := (latest_iff ordered_sample).mpr rfl
  have hoffset : decimal sampleEntry.offset ≤ 500 := by decide
  exact ⟨ordered_sample, hlatest, hoffset,
    (parseIetfBulletin_latest ordered_sample 1483228000).1 sampleEntry hlatest hoffset⟩

end SourceCompanion.ClockTAI
