import SourceCompanion.Pad.Fill

/-! # The answer to a request

Messages of another type are passed over until there is PAD data. Each of them leaves the buffer as
small as it was itself, and what comes after it is cut to that.
-/

namespace SourceCompanion

def PadInterface.afterReceives (p : PadInterface) (n : ℕ) : PadInterface :=
  { p with receives := p.receives + n }

theorem PadInterface.afterReceives_afterReceives (p : PadInterface) (n m : ℕ) :
    (p.afterReceives n).afterReceives m = p.afterReceives (m + n) := by
  rw [afterReceives, afterReceives, afterReceives, Nat.add_assoc, Nat.add_comm n m]

namespace Pad

def isPadData (datagram : List UInt8) : Bool := datagram.head? = some messagePadData

/-- The messages before the first one with PAD data. -/
def foreign (datagrams : List (List UInt8)) : List (List UInt8) :=
  datagrams.takeWhile fun datagram => !isPadData datagram

/-- The socket holds these messages, and nothing after them. -/
def Pending (os : Os) (p : PadInterface) (datagrams : List (List UInt8)) : Prop :=
  ∀ i, os.recvfrom (p.receives + i) = (datagrams[i]?).elim (.error .again) .ok

/-- The content of the first message with PAD data is returned, empty exactly if there is none, and
the messages after it are still there. -/
def RequestComplete (os : Os) (p : PadInterface) (padlen : UInt8)
    (datagrams : List (List UInt8)) : Prop :=
  ∃ fuel padData p', p.request os fuel padlen = .ok (padData, p') ∧
    (∀ datagram, datagrams.find? isPadData = some datagram → padData = datagram.tail) ∧
    (padData = [] ↔ datagrams.find? isPadData = none) ∧
    Pending os p' (datagrams.drop (datagrams.findIdx isPadData + 1))

/-- The size of the buffer after messages that were passed over. -/
def bufferAfter : ℕ → List (List UInt8) → ℕ
  | bufferSize, [] => bufferSize
  | bufferSize, [] :: datagrams => bufferAfter bufferSize datagrams
  | bufferSize, datagram :: datagrams => bufferAfter (min bufferSize datagram.length) datagrams

theorem bufferAfter_pos {bufferSize : ℕ} (hpos : 0 < bufferSize) (datagrams : List (List UInt8)) :
    0 < bufferAfter bufferSize datagrams := by
  fun_induction bufferAfter bufferSize datagrams with
  | case1 => exact hpos
  | case2 _ _ ih => exact ih hpos
  | case3 bufferSize datagram _ hne ih =>
    exact ih (lt_min hpos (List.length_pos_of_ne_nil hne))

theorem le_bufferAfter_iff (n bufferSize : ℕ) (datagrams : List (List UInt8)) :
    n ≤ bufferAfter bufferSize datagrams ↔
      n ≤ bufferSize ∧ ∀ datagram ∈ datagrams, datagram ≠ [] → n ≤ datagram.length := by
  fun_induction bufferAfter bufferSize datagrams with
  | case1 => simp
  | case2 _ _ ih => simp [ih]
  | case3 bufferSize datagram datagrams hne ih =>
    have hne : datagram ≠ [] := hne
    simp only [ih, le_min_iff, List.forall_mem_cons, and_assoc, ne_eq, hne, not_false_eq_true,
      forall_const]

def received (bufferSize : ℕ) (datagrams : List (List UInt8)) : List UInt8 :=
  (datagrams.find? isPadData).elim [] fun datagram =>
    (datagram.take (bufferAfter bufferSize (foreign datagrams))).tail

theorem received_of_isPadData {datagram : List UInt8} (h : isPadData datagram) (bufferSize : ℕ)
    (datagrams : List (List UInt8)) :
    received bufferSize (datagram :: datagrams) = (datagram.take bufferSize).tail := by
  simp [received, foreign, h, bufferAfter]

theorem received_nil_cons (bufferSize : ℕ) (datagrams : List (List UInt8)) :
    received bufferSize ([] :: datagrams) = received bufferSize datagrams := by
  simp [received, foreign, isPadData, bufferAfter]

theorem received_of_foreign {datagram : List UInt8} (h : isPadData datagram = false)
    (hne : datagram ≠ []) (bufferSize : ℕ) (datagrams : List (List UInt8)) :
    received bufferSize (datagram :: datagrams) =
      received (min bufferSize datagram.length) datagrams := by
  cases datagram with
  | nil => exact absurd rfl hne
  | cons => simp [received, foreign, h, bufferAfter]

theorem received_eq_tail_iff {bufferSize : ℕ} (hpos : 0 < bufferSize)
    {datagrams : List (List UInt8)} {datagram : List UInt8}
    (hfind : datagrams.find? isPadData = some datagram) :
    received bufferSize datagrams = datagram.tail ↔
      datagram.length ≤ bufferAfter bufferSize (foreign datagrams) := by
  have hroom := bufferAfter_pos hpos (foreign datagrams)
  have hreceived : received bufferSize datagrams =
      (datagram.take (bufferAfter bufferSize (foreign datagrams))).tail := by
    rw [received, hfind, Option.elim_some]
  rw [hreceived]
  constructor
  · intro h
    have hlen := congrArg List.length h
    rw [List.length_tail, List.length_tail, List.length_take] at hlen
    have hne : datagram.length ≠ 0 := by
      intro hzero
      have hpad := List.find?_some hfind
      rw [List.length_eq_zero_iff.mp hzero] at hpad
      cases hpad
    omega
  · intro h
    rw [List.take_of_length_le h]

theorem received_of_find?_eq_none {datagrams : List (List UInt8)}
    (hfind : datagrams.find? isPadData = none) (bufferSize : ℕ) :
    received bufferSize datagrams = [] := by
  rw [received, hfind, Option.elim_none]

section Pending

variable {os : Os} {p : PadInterface} {datagrams : List (List UInt8)}

theorem Pending.nil (h : Pending os p []) : os.recvfrom p.receives = .error .again := h 0

theorem Pending.head {datagram : List UInt8} (h : Pending os p (datagram :: datagrams)) :
    os.recvfrom p.receives = .ok datagram := h 0

theorem Pending.drop (h : Pending os p datagrams) {p' : PadInterface} {n : ℕ}
    (hreceives : p'.receives = p.receives + n) : Pending os p' (datagrams.drop n) := by
  intro i
  rw [hreceives, Nat.add_assoc, h, List.getElem?_drop]

theorem Pending.tail {datagram : List UInt8} (h : Pending os p (datagram :: datagrams)) :
    Pending os (p.afterReceives 1) datagrams :=
  h.drop (n := 1) rfl

end Pending

end Pad

namespace PadInterface

open Pad

section Receive

variable {os : Os} {p : PadInterface} {datagrams : List (List UInt8)}

theorem receive_again {fuel : ℕ} (bufferSize : ℕ) (h : os.recvfrom p.receives = .error .again) :
    p.receive os (fuel + 1) bufferSize = .ok ([], p.afterReceives 1) := by
  simp only [receive, h, ne_eq, not_true_eq_false, if_false, afterReceives]

theorem receive_nil {fuel bufferSize : ℕ} (h : os.recvfrom p.receives = .ok []) :
    p.receive os (fuel + 1) bufferSize = (p.afterReceives 1).receive os fuel bufferSize := by
  simp only [receive, h, List.take_nil, afterReceives]

theorem receive_cons {fuel bufferSize : ℕ} (hpos : 0 < bufferSize) {type : UInt8}
    {content : List UInt8} (h : os.recvfrom p.receives = .ok (type :: content)) :
    p.receive os (fuel + 1) bufferSize =
      if type = messagePadData then
        .ok (((type :: content).take bufferSize).tail, p.afterReceives 1)
      else (p.afterReceives 1).receive os fuel (min bufferSize (type :: content).length) := by
  obtain ⟨n, rfl⟩ := Nat.exists_eq_add_one_of_ne_zero hpos.ne'
  have hsize : (content.take n).length + 1 = min (n + 1) (type :: content).length := by
    rw [List.length_take, List.length_cons]
    omega
  simp only [receive, h, List.take_succ_cons, hsize, List.tail_cons, afterReceives]

/-- The loop ends with the first message that has PAD data, or behind the last message. -/
theorem receive_eq {bufferSize : ℕ} (hpos : 0 < bufferSize) (h : Pending os p datagrams)
    (fuel : ℕ) :
    p.receive os fuel bufferSize =
      if datagrams.findIdx isPadData < fuel then
        .ok (received bufferSize datagrams, p.afterReceives (datagrams.findIdx isPadData + 1))
      else .error .outOfFuel := by
  induction fuel generalizing p bufferSize datagrams with
  | zero => rfl
  | succ fuel ih =>
    match datagrams, h with
    | [], h =>
      rw [receive_again bufferSize h.nil, List.findIdx_nil, if_pos (Nat.succ_pos fuel),
        received_of_find?_eq_none rfl]
    | [] :: datagrams, h =>
      have hfind : ([] :: datagrams).findIdx isPadData = datagrams.findIdx isPadData + 1 := by
        simp [List.findIdx_cons, isPadData]
      rw [receive_nil h.head, ih hpos h.tail, received_nil_cons, hfind]
      simp only [Nat.add_lt_add_iff_right, afterReceives_afterReceives]
    | (type :: content) :: datagrams, h =>
      rw [receive_cons hpos h.head]
      by_cases htype : type = messagePadData
      · have hpad : isPadData (type :: content) := by simp [isPadData, htype]
        rw [if_pos htype, received_of_isPadData hpad, List.findIdx_cons, hpad, cond_true,
          if_pos (Nat.succ_pos fuel)]
      · have hpad : isPadData (type :: content) = false := by simp [isPadData, htype]
        have hroom : 0 < min bufferSize (type :: content).length :=
          lt_min hpos (Nat.succ_pos _)
        rw [if_neg htype, ih hroom h.tail, received_of_foreign hpad (List.cons_ne_nil _ _),
          List.findIdx_cons, hpad, cond_false]
        simp only [Nat.add_lt_add_iff_right, afterReceives_afterReceives]

end Receive

section Request

variable {os : Os} {p : PadInterface} {datagrams : List (List UInt8)}

theorem request_eq_ok_iff (padlen : UInt8) (hident : p.padIdent ≠ [])
    (hpending : Pending os p datagrams) {padData : List UInt8} {p' : PadInterface} :
    (∃ fuel, p.request os fuel padlen = .ok (padData, p')) ↔
      padData = received 2048 datagrams ∧
      p' = (p.noteSent (os.sendto p.sends [messageRequest, padlen])).afterReceives
        (datagrams.findIdx isPadData + 1) := by
  have hsent : Pending os (p.noteSent (os.sendto p.sends [messageRequest, padlen])) datagrams :=
    hpending.drop (n := 0) (receives_noteSent p _)
  simp only [request, if_neg hident, receive_eq (by decide : 0 < 2048) hsent]
  constructor
  · rintro ⟨fuel, hok⟩
    split at hok
    · cases hok
      exact ⟨rfl, rfl⟩
    · cases hok
  · rintro ⟨rfl, rfl⟩
    exact ⟨datagrams.findIdx isPadData + 1, if_pos (Nat.lt_succ_self _)⟩

/-- What is returned is complete, exactly if the first message with PAD data has content, and none
that is passed over before it is shorter, except for an empty one. -/
theorem requestComplete_iff (padlen : UInt8) (hident : p.padIdent ≠ [])
    (hpending : Pending os p datagrams) (hsize : ∀ datagram ∈ datagrams, datagram.length ≤ 2048) :
    RequestComplete os p padlen datagrams ↔
      ∀ datagram, datagrams.find? isPadData = some datagram → datagram.tail ≠ [] ∧
        ∀ message ∈ foreign datagrams, message ≠ [] → datagram.length ≤ message.length := by
  constructor
  · rintro ⟨fuel, padData, p', hok, hcontent, hempty, -⟩ datagram hfind
    obtain ⟨rfl, -⟩ := (request_eq_ok_iff padlen hident hpending).mp ⟨fuel, hok⟩
    have htail := hcontent datagram hfind
    refine ⟨?_, ?_⟩
    · intro hnil
      have hnone := hempty.mp (htail.trans hnil)
      cases hfind.symm.trans hnone
    · have hroom := (received_eq_tail_iff (by decide : 0 < 2048) hfind).mp htail
      exact ((le_bufferAfter_iff _ _ _).mp hroom).2
  · intro h
    obtain ⟨fuel, hok⟩ := (request_eq_ok_iff padlen hident hpending).mpr ⟨rfl, rfl⟩
    have hcontent (datagram : List UInt8) (hfind : datagrams.find? isPadData = some datagram) :
        received 2048 datagrams = datagram.tail := by
      refine (received_eq_tail_iff (by decide) hfind).mpr ((le_bufferAfter_iff _ _ _).mpr ?_)
      exact ⟨hsize datagram (List.mem_of_find?_eq_some hfind), (h datagram hfind).2⟩
    refine ⟨fuel, _, _, hok, hcontent, ⟨?_, ?_⟩, ?_⟩
    · intro hnil
      rcases hfind : datagrams.find? isPadData with _ | datagram
      · rfl
      · exact absurd ((hcontent datagram hfind).symm.trans hnil) (h datagram hfind).1
    · intro hnone
      exact received_of_find?_eq_none hnone 2048
    · refine hpending.drop ?_
      exact congrArg (· + (datagrams.findIdx isPadData + 1)) (receives_noteSent p _)

end Request

def heldOs (datagrams : List (List UInt8)) : Os where
  sendto _ packet := .ok packet.length
  recvfrom i := (datagrams[i]?).elim (.error .again) .ok
  memory _ _ := 0

def fresh : PadInterface where
  padIdent := ['p']

theorem pending_fresh (datagrams : List (List UInt8)) :
    Pending (heldOs datagrams) fresh datagrams := by
  intro i
  rw [heldOs, fresh, Nat.zero_add]

/-- A message of two bytes takes the end of the content after it away. -/
theorem request_incomplete :
    Pending (heldOs [[9, 9], [2, 5, 6]]) fresh [[9, 9], [2, 5, 6]] ∧
      ¬ RequestComplete (heldOs [[9, 9], [2, 5, 6]]) fresh 2 [[9, 9], [2, 5, 6]] := by
  refine ⟨pending_fresh _, ?_⟩
  rintro ⟨fuel, padData, p', hok, hcontent, -⟩
  obtain ⟨rfl, -⟩ := (request_eq_ok_iff 2 (by decide) (pending_fresh _)).mp ⟨fuel, hok⟩
  exact absurd (hcontent [2, 5, 6] (by decide)) (by decide)

theorem request_complete_three :
    RequestComplete (heldOs [[9, 9, 9], [], [2, 5, 6], [1]]) fresh 2
      [[9, 9, 9], [], [2, 5, 6], [1]] := by
  refine (requestComplete_iff 2 (by decide) (pending_fresh _) (by decide)).mpr ?_
  intro datagram hfind
  have hfirst : [2, 5, 6] = datagram := Option.some_injective _ hfind
  subst hfirst
  decide

end PadInterface

end SourceCompanion
