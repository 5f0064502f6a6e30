import Mathlib.Algebra.Order.Ring.Int
import Mathlib.Data.List.TakeWhile

/-! # The address of a socket

An address is written as a host and a port, with or without the name of the protocol before it.
The port is read as the C library reads a number. What is accepted is larger than the form that
the messages give: white space and a plus sign may stand before the port, and any text after it.
-/

namespace SourceCompanion.AVTInput

def isSpace (c : Char) : Bool := c = ' ' || ('\t' ≤ c && c ≤ '\r')

def decimal (digits : List Char) : ℕ :=
  digits.foldl (fun n d => n * 10 + (d.toNat - '0'.toNat)) 0

def longMin : ℤ := -2 ^ 63
def longMax : ℤ := 2 ^ 63 - 1

/-- The number at the beginning of a text, after white space and with an optional sign. A text
without digits counts as 0, and a number out of range as the nearest one in it. -/
def strtol (text : List Char) : ℤ :=
  let clamp (n : ℤ) : ℤ := max longMin (min longMax n)
  match text.dropWhile isSpace with
  | '-' :: digits => clamp (-(decimal (digits.takeWhile Char.isDigit) : ℤ))
  | '+' :: digits => clamp (decimal (digits.takeWhile Char.isDigit))
  | digits => clamp (decimal (digits.takeWhile Char.isDigit))

def parseURI (uri : List Char) : Option (List Char × ℤ) :=
  -- Skip the protocol if it is present.
  let address := if "udp://".toList.isPrefixOf uri then uri.drop 6 else uri
  match address.findIdx? (· = ':') with
  | none => none
  | some pos =>
    let port := strtol (address.drop (pos + 1))
    if port = longMin ∨ port = longMax then none
    else if port ≤ 0 ∨ port ≥ 65536 then none
    else some (address.take pos, port)

theorem port_of_parseURI {uri host : List Char} {port : ℤ} (h : parseURI uri = some (host, port)) :
    0 < port ∧ port < 65536 := by
  unfold parseURI at h
  generalize (if "udp://".toList.isPrefixOf uri then uri.drop 6 else uri) = address at h
  dsimp only at h
  split at h
  · cases h
  · split_ifs at h with hrange hport
    cases h
    omega

example : parseURI "udp://239.1.2.3:32010".toList = some ("239.1.2.3".toList, 32010) := by
  decide +kernel

/-! ## Numbers that the C library reads -/

/-- A text that is read as a number without a minus sign: white space, perhaps a plus sign, and
digits. The rest is not read. -/
structure Reads (text spaces sign digits rest : List Char) : Prop where
  text_eq : text = spaces ++ (sign ++ (digits ++ rest))
  isSpace : ∀ c ∈ spaces, isSpace c = true
  sign_eq : sign = [] ∨ sign = ['+']
  digits_ne_nil : digits ≠ []
  isDigit : ∀ d ∈ digits, d.isDigit = true
  rest_head : ∀ d ∈ rest.head?, d.isDigit = false

theorem isSpace_of_isDigit {c : Char} (h : c.isDigit = true) : isSpace c = false := by
  have hspace : c ≠ ' ' := by
    rintro rfl
    exact absurd h (by decide)
  have hcontrol : ¬c ≤ '\r' := by
    have hzero : '0'.val.toNat ≤ c.val.toNat := by
      simp only [Char.isDigit, Bool.and_eq_true, decide_eq_true_eq, ge_iff_le,
        UInt32.le_iff_toNat_le] at h
      exact h.1
    have hreturn : '\r'.val.toNat < '0'.val.toNat := by decide
    rw [Char.le_def, UInt32.le_iff_toNat_le]
    omega
  simp [isSpace, hspace, hcontrol]

theorem strtol_of_dropWhile {text sign tail : List Char}
    (h : text.dropWhile isSpace = sign ++ tail)
    (hsign : sign = ['+'] ∨ sign = [] ∧ '-' ∉ tail.head? ∧ '+' ∉ tail.head?) :
    strtol text = max longMin (min longMax (decimal (tail.takeWhile Char.isDigit) : ℤ)) := by
  rw [strtol, h]
  rcases hsign with rfl | ⟨rfl, hminus, hplus⟩
  · rfl
  · cases tail with
    | nil => rfl
    | cons c tail =>
      rw [List.nil_append]
      split
      · rename_i heq
        cases heq
        exact absurd rfl hminus
      · rename_i heq
        cases heq
        exact absurd rfl hplus
      · rfl

theorem strtol_of_reads {text spaces sign digits rest : List Char}
    (h : Reads text spaces sign digits rest) (hmax : decimal digits < 65536) :
    strtol text = decimal digits := by
  obtain ⟨rfl, hspaces, hsign, hne, hdigits, hrest⟩ := h
  obtain ⟨d, ds, rfl⟩ := List.exists_cons_of_ne_nil hne
  have hd : d.isDigit = true := hdigits d List.mem_cons_self
  have hread : ((d :: ds) ++ rest).takeWhile Char.isDigit = d :: ds := by
    rw [List.takeWhile_append_of_pos hdigits]
    cases rest with
    | nil => simp
    | cons r rest => simp [hrest r rfl]
  have hdrop : (spaces ++ (sign ++ (d :: ds ++ rest))).dropWhile isSpace =
      sign ++ (d :: ds ++ rest) := by
    rw [List.dropWhile_append_of_pos hspaces]
    rcases hsign with rfl | rfl
    · simp [isSpace_of_isDigit hd]
    · simp [show isSpace '+' = false by decide]
  have hvalue : sign = ['+'] ∨
      sign = [] ∧ '-' ∉ (d :: ds ++ rest).head? ∧ '+' ∉ (d :: ds ++ rest).head? := by
    rcases hsign with rfl | rfl
    · refine Or.inr ⟨rfl, ?_, ?_⟩ <;>
      · rintro ⟨⟩
        exact absurd hd (by decide)
    · exact Or.inl rfl
  rw [strtol_of_dropWhile hdrop hvalue, hread, longMin, longMax]
  omega

theorem reads_of_dropWhile {text sign tail : List Char} (h : text.dropWhile isSpace = sign ++ tail)
    (hsign : sign = [] ∨ sign = ['+']) (hpos : 0 < decimal (tail.takeWhile Char.isDigit)) :
    Reads text (text.takeWhile isSpace) sign (tail.takeWhile Char.isDigit)
      (tail.dropWhile Char.isDigit) where
  text_eq := by rw [List.takeWhile_append_dropWhile, ← h, List.takeWhile_append_dropWhile]
  isSpace _ := List.mem_takeWhile_imp
  sign_eq := hsign
  digits_ne_nil hnil := by
    rw [hnil] at hpos
    exact absurd hpos (by decide)
  isDigit _ := List.mem_takeWhile_imp
  rest_head d hd := by
    have := List.head?_dropWhile_not Char.isDigit tail
    rw [hd] at this
    exact this

/-- A text with a positive value is read in this way. -/
theorem reads_of_strtol {text : List Char} (hpos : 0 < strtol text) (hmax : strtol text < 65536) :
    ∃ spaces sign digits rest, Reads text spaces sign digits rest ∧
      strtol text = decimal digits := by
  obtain ⟨sign, tail, hdrop, hsign⟩ : ∃ sign tail, text.dropWhile isSpace = sign ++ tail ∧
      (sign = ['+'] ∨ sign = [] ∧ '-' ∉ tail.head? ∧ '+' ∉ tail.head?) := by
    cases htext : text.dropWhile isSpace with
    | nil => exact ⟨[], [], rfl, Or.inr ⟨rfl, by simp⟩⟩
    | cons c tail =>
      by_cases hminus : c = '-'
      · subst hminus
        have hvalue : strtol text =
            max longMin (min longMax (-(decimal (tail.takeWhile Char.isDigit) : ℤ))) := by
          rw [strtol, htext]
          rfl
        unfold longMin longMax at hvalue
        omega
      · by_cases hplus : c = '+'
        · exact ⟨['+'], tail, by rw [hplus]; rfl, Or.inl rfl⟩
        · exact ⟨[], c :: tail, rfl, Or.inr ⟨rfl, by simpa using hminus, by simpa using hplus⟩⟩
  have hvalue := strtol_of_dropWhile hdrop hsign
  rw [hvalue] at hpos hmax ⊢
  unfold longMin longMax at *
  refine ⟨_, sign, _, _, reads_of_dropWhile hdrop ?_ (by omega), by omega⟩
  rcases hsign with hplus | ⟨hnone, _⟩
  · exact Or.inr hplus
  · exact Or.inl hnone

/-! ## The form of an address -/

/-- The text after the name of the protocol if that is present. -/
def skipProtocol (uri : List Char) : List Char :=
  if "udp://".toList.isPrefixOf uri then uri.drop 6 else uri

theorem findIdx?_colon {host : List Char} (h : ':' ∉ host) (text : List Char) :
    (host ++ ':' :: text).findIdx? (· = ':') = some host.length := by
  rw [List.findIdx?_append, List.findIdx?_eq_none_iff.mpr fun c hc => ?_]
  · simp [List.findIdx?_cons]
  · simp only [decide_eq_false_iff_not]
    rintro rfl
    exact h hc

theorem eq_append_of_findIdx? {address : List Char} {pos : ℕ}
    (h : address.findIdx? (· = ':') = some pos) :
    address = address.take pos ++ ':' :: address.drop (pos + 1) ∧ ':' ∉ address.take pos := by
  obtain ⟨hpos, hcolon, hbefore⟩ := List.findIdx?_eq_some_iff_getElem.mp h
  constructor
  · have hat : address[pos] = ':' := by simpa using hcolon
    rw [← hat, ← List.drop_eq_getElem_cons hpos, List.take_append_drop]
  · intro hmem
    obtain ⟨i, hi, hat⟩ := List.mem_take_iff_getElem.mp hmem
    exact hbefore i (by omega) (by simpa using hat)

theorem parseURI_of_none {uri : List Char} (h : (skipProtocol uri).findIdx? (· = ':') = none) :
    parseURI uri = none := by
  rw [skipProtocol] at h
  simp only [parseURI, h]

theorem parseURI_of_some {uri : List Char} {pos : ℕ}
    (h : (skipProtocol uri).findIdx? (· = ':') = some pos) :
    parseURI uri =
      if 0 < strtol ((skipProtocol uri).drop (pos + 1)) ∧
          strtol ((skipProtocol uri).drop (pos + 1)) < 65536 then
        some ((skipProtocol uri).take pos, strtol ((skipProtocol uri).drop (pos + 1)))
      else none := by
  have hmin : longMin < 0 := by decide
  have hmax : 65536 < longMax := by decide
  rw [skipProtocol] at h ⊢
  simp only [parseURI, h]
  split_ifs <;> first | rfl | omega

theorem parseURI_eq_some_iff {uri host : List Char} {port : ℤ} :
    parseURI uri = some (host, port) ↔ ∃ text, skipProtocol uri = host ++ ':' :: text ∧
      ':' ∉ host ∧ strtol text = port ∧ 0 < port ∧ port < 65536 := by
  constructor
  · intro h
    cases hpos : (skipProtocol uri).findIdx? (· = ':') with
    | none => simp [parseURI_of_none hpos] at h
    | some pos =>
      obtain ⟨hsplit, hhost⟩ := eq_append_of_findIdx? hpos
      rw [parseURI_of_some hpos] at h
      split at h
      · rename_i hport
        cases h
        exact ⟨_, hsplit, hhost, rfl, hport⟩
      · cases h
  · rintro ⟨text, hsplit, hhost, rfl, hport⟩
    have hpos : (skipProtocol uri).findIdx? (· = ':') = some host.length := by
      rw [hsplit]
      exact findIdx?_colon hhost text
    have hdrop : (skipProtocol uri).drop (host.length + 1) = text := by
      rw [hsplit, ← List.drop_drop, List.drop_left]
      rfl
    rw [parseURI_of_some hpos, hdrop, if_pos hport, hsplit, List.take_left]

/-- The form `[udp://][address]:port`, with any text for the port. -/
def IsForm (uri address port : List Char) : Prop :=
  ':' ∉ address ∧
    (uri = address ++ ':' :: port ∨ uri = "udp://".toList ++ (address ++ ':' :: port))

theorem append_colon_inj {a b s t : List Char} (ha : ':' ∉ a) (hb : ':' ∉ b)
    (h : a ++ ':' :: s = b ++ ':' :: t) : a = b ∧ s = t := by
  have hlen : a.length = b.length := by
    have := findIdx?_colon ha s
    rw [h, findIdx?_colon hb t] at this
    exact (Option.some.inj this).symm
  obtain ⟨hab, hst⟩ := List.append_inj h hlen
  exact ⟨hab, List.tail_eq_of_cons_eq hst⟩

theorem skipProtocol_udp (rest : List Char) : skipProtocol ("udp://".toList ++ rest) = rest := by
  have hprefix : "udp://".toList.isPrefixOf ("udp://".toList ++ rest) = true :=
    List.isPrefixOf_iff_prefix.mpr (List.prefix_append ..)
  rw [skipProtocol, if_pos hprefix]
  exact List.drop_left' rfl

theorem isForm_iff {uri address text : List Char} (h : '/' ∉ text.head?) :
    IsForm uri address text ↔ skipProtocol uri = address ++ ':' :: text ∧ ':' ∉ address := by
  constructor
  · rintro ⟨haddress, rfl | rfl⟩
    · refine ⟨if_neg fun hprefix => ?_, haddress⟩
      obtain ⟨rest, hrest⟩ := List.isPrefixOf_iff_prefix.mp hprefix
      have hudp : "udp".toList ++ ':' :: ("//".toList ++ rest) = address ++ ':' :: text := hrest
      obtain ⟨_, rfl⟩ := append_colon_inj (by decide) haddress hudp
      exact h rfl
    · exact ⟨skipProtocol_udp _, haddress⟩
  · rintro ⟨hskip, haddress⟩
    refine ⟨haddress, ?_⟩
    unfold skipProtocol at hskip
    split at hskip
    · rename_i hprefix
      obtain ⟨rest, rfl⟩ := List.isPrefixOf_iff_prefix.mp hprefix
      have hrest : ("udp://".toList ++ rest).drop 6 = rest := List.drop_left' rfl
      exact Or.inr (by rw [← hskip, hrest])
    · exact Or.inl hskip

/-- The form that the messages give: the port is a decimal number of UDP, and nothing follows. -/
def HasForm (uri address : List Char) (port : ℤ) : Prop :=
  ∃ digits, IsForm uri address digits ∧ digits ≠ [] ∧ (∀ d ∈ digits, d.isDigit = true) ∧
    port = decimal digits ∧ 0 < port ∧ port < 65536

/-- A port that is read has nothing before its digits and nothing after them. -/
def PlainPort (uri : List Char) : Prop :=
  ∀ address text spaces sign digits rest, IsForm uri address text →
    Reads text spaces sign digits rest → 0 < decimal digits → decimal digits < 65536 →
    spaces = [] ∧ sign = [] ∧ rest = []

theorem slash_notMem_head? {text spaces sign digits rest : List Char}
    (h : Reads text spaces sign digits rest) : '/' ∉ text.head? := by
  obtain ⟨rfl, hspaces, hsign, hne, hdigits, -⟩ := h
  intro hslash
  cases spaces with
  | cons c spaces =>
    cases hslash
    exact absurd (hspaces _ List.mem_cons_self) (by decide)
  | nil =>
    obtain ⟨d, ds, rfl⟩ := List.exists_cons_of_ne_nil hne
    rcases hsign with rfl | rfl
    · cases hslash
      exact absurd (hdigits _ List.mem_cons_self) (by decide)
    · cases hslash

theorem reads_digits {digits : List Char} (hne : digits ≠ [])
    (hdigits : ∀ d ∈ digits, d.isDigit = true) : Reads digits [] [] digits [] where
  text_eq := by simp
  isSpace := List.forall_mem_nil _
  sign_eq := Or.inl rfl
  digits_ne_nil := hne
  isDigit := hdigits
  rest_head := by simp

theorem parseURI_of_reads {uri address text spaces sign digits rest : List Char}
    (hform : IsForm uri address text) (h : Reads text spaces sign digits rest)
    (hpos : 0 < decimal digits) (hmax : decimal digits < 65536) :
    parseURI uri = some (address, (decimal digits : ℤ)) := by
  obtain ⟨hskip, haddress⟩ := (isForm_iff (slash_notMem_head? h)).mp hform
  exact parseURI_eq_some_iff.mpr
    ⟨text, hskip, haddress, strtol_of_reads h hmax, by omega, by omega⟩

theorem parseURI_of_hasForm {uri address : List Char} {port : ℤ} (h : HasForm uri address port) :
    parseURI uri = some (address, port) := by
  obtain ⟨digits, hform, hne, hdigits, rfl, hpos, hmax⟩ := h
  exact parseURI_of_reads hform (reads_digits hne hdigits) (by omega) (by omega)

theorem plain_of_digits {text spaces sign digits rest : List Char}
    (h : Reads text spaces sign digits rest) (hdigits : ∀ d ∈ text, d.isDigit = true) :
    spaces = [] ∧ sign = [] ∧ rest = [] := by
  obtain ⟨rfl, hspaces, hsign, -, -, hrest⟩ := h
  refine ⟨?_, ?_, ?_⟩
  · refine List.eq_nil_iff_forall_not_mem.mpr fun c hc => ?_
    have := isSpace_of_isDigit (hdigits c (by simp [hc]))
    rw [hspaces c hc] at this
    cases this
  · rcases hsign with rfl | rfl
    · rfl
    · exact absurd (hdigits '+' (by simp)) (by decide)
  · cases rest with
    | nil => rfl
    | cons r rest =>
      have := hdigits r (by simp)
      rw [hrest r rfl] at this
      cases this

/-- The accepted addresses are those of the form exactly when the port is plain. -/
theorem parseURI_iff_hasForm (uri : List Char) :
    (∀ address port, parseURI uri = some (address, port) ↔ HasForm uri address port) ↔
      PlainPort uri := by
  constructor
  · intro hall address text spaces sign digits rest hform hreads hpos hmax
    obtain ⟨digits', hform', hne, hdigits, -⟩ :=
      (hall address _).mp (parseURI_of_reads hform hreads hpos hmax)
    have hskip := ((isForm_iff (slash_notMem_head? hreads)).mp hform).1
    have hskip' :=
      ((isForm_iff (slash_notMem_head? (reads_digits hne hdigits))).mp hform').1
    have htext : text = digits' :=
      List.tail_eq_of_cons_eq (List.append_cancel_left (hskip.symm.trans hskip'))
    exact plain_of_digits hreads (htext ▸ hdigits)
  · intro hplain address port
    refine ⟨fun h => ?_, parseURI_of_hasForm⟩
    obtain ⟨text, hskip, haddress, rfl, hpos, hmax⟩ := parseURI_eq_some_iff.mp h
    obtain ⟨spaces, sign, digits, rest, hreads, hvalue⟩ := reads_of_strtol hpos hmax
    have hform := (isForm_iff (slash_notMem_head? hreads)).mpr ⟨hskip, haddress⟩
    obtain ⟨rfl, rfl, rfl⟩ :=
      hplain address text spaces sign digits rest hform hreads (by omega) (by omega)
    have htext : text = digits := by simpa using hreads.text_eq
    exact ⟨digits, htext ▸ hform, hreads.digits_ne_nil, hreads.isDigit, hvalue, hpos, hmax⟩

/-- Text after the port is not noticed. -/
theorem parseURI_trailing :
    parseURI "239.1.2.3:32010x".toList = some ("239.1.2.3".toList, 32010) ∧
      ¬ HasForm "239.1.2.3:32010x".toList "239.1.2.3".toList 32010 := by
  refine ⟨by decide +kernel, ?_⟩
  rintro ⟨digits, ⟨_, huri | huri⟩, _, hdigits, _⟩
  · have hsplit : "239.1.2.3".toList ++ ':' :: "32010x".toList =
        "239.1.2.3".toList ++ ':' :: digits := huri
    have htext : "32010x".toList = digits :=
      List.tail_eq_of_cons_eq (List.append_cancel_left hsplit)
    exact absurd (hdigits 'x' (htext ▸ by decide)) (by decide)
  · cases huri

end SourceCompanion.AVTInput
