import SourceCompanion.Pad.Slice

/-! # The end of a pass

A pass ends at the first request that finds no reply, or when the queue is full. Replies that store
nothing do not bring it nearer to that.
-/

namespace SourceCompanion.PadInterface

open Pad

@[simp] theorem padIdent_noteSent (p : PadInterface) (r : Except Errno ℕ) :
    (p.noteSent r).padIdent = p.padIdent := by
  unfold noteSent
  split <;> split <;> rfl

@[simp] theorem receives_noteSent (p : PadInterface) (r : Except Errno ℕ) :
    (p.noteSent r).receives = p.receives := by
  unfold noteSent
  split <;> split <;> rfl

def answered (os : Os) (padlen : UInt8) (p : PadInterface) : PadInterface :=
  { p.noteSent (os.sendto p.sends [messageRequest, padlen]) with receives := p.receives + 1 }

@[simp] theorem padIdent_answered (os : Os) (padlen : UInt8) (p : PadInterface) :
    (p.answered os padlen).padIdent = p.padIdent :=
  padIdent_noteSent p _

@[simp] theorem receives_answered (os : Os) (padlen : UInt8) (p : PadInterface) :
    (p.answered os padlen).receives = p.receives + 1 := rfl

section Request

variable {os : Os} {p : PadInterface} {padlen : UInt8}

theorem request_again (hident : p.padIdent ≠ [])
    (hagain : os.recvfrom p.receives = .error .again) (fuel : ℕ) :
    p.request os (fuel + 1) padlen = .ok ([], p.answered os padlen) := by
  simp only [request, if_neg hident, receive, receives_noteSent, hagain, ne_eq, not_true_eq_false,
    if_false, answered]

theorem request_reply (hident : p.padIdent ≠ []) {padData : List UInt8}
    (hfits : padData.length < 2048)
    (hreply : os.recvfrom p.receives = .ok (messagePadData :: padData)) (fuel : ℕ) :
    p.request os (fuel + 1) padlen = .ok (padData, p.answered os padlen) := by
  have htake : (messagePadData :: padData).take 2048 = messagePadData :: padData :=
    List.take_of_length_le hfits
  simp only [request, if_neg hident, receive, receives_noteSent, hreply, htake, if_true, answered]

end Request

end SourceCompanion.PadInterface

namespace SourceCompanion.Pad

open Recorded AVTInput

/-- An answer of the socket without error: nothing more, or PAD data of the expected size. -/
def Expected (padlen : ℕ) : Except Errno (List UInt8) → Prop
  | .error errno => errno = .again
  | .ok datagram => ∃ padData, datagram = messagePadData :: padData ∧ padData.length = padlen + 1

def announces (padlen : ℕ) : Except Errno (List UInt8) → Bool
  | .ok (_ :: padData) => calculatedPadlen padlen padData ≠ 0
  | _ => false

def replies (events : List Event) : ℕ :=
  events.countP fun
    | .reply _ => true
    | .slice _ _ => false

/-- The loop returns after it took at most so many replies. -/
def FillEnds (os : Os) (padlen : ℕ) (s : Filler) (n : ℕ) : Prop :=
  ∃ fuel, (fill os padlen fuel s).1 = .ok () ∧ replies (fill os padlen fuel s).2.2 ≤ n

def stored (os : Os) (padlen : ℕ) (s : Filler) (n : ℕ) : ℕ :=
  if s.input.padPort = 0 then 0
  else (List.range n).countP fun k => announces padlen (os.recvfrom (s.interface.receives + k))

section Step

variable {os : Os} {padlen : ℕ} {s : Filler}

theorem fill_full (hfull : s.input.padQueueFull) (fuel : ℕ) :
    fill os padlen (fuel + 1) s = (.ok (), s, []) := by
  simp only [fill, bind_apply, get_apply, hfull, if_true, pure_apply, List.append_nil]

theorem fill_again (hroom : s.input.padQueueFull = false) (hident : s.interface.padIdent ≠ [])
    (hagain : os.recvfrom s.interface.receives = .error .again) (fuel : ℕ) :
    fill os padlen (fuel + 2) s =
      (.ok (), { s with interface := s.interface.answered os (.ofNat padlen) }, []) := by
  simp only [fill, request, bind_apply, get_apply, hroom, if_false, Bool.false_eq_true,
    PadInterface.request_again hident hagain, set_apply, pure_apply, ne_eq, not_true_eq_false,
    if_true, List.append_nil]

def Filler.replied (os : Os) (padlen : ℕ) (s : Filler) (padData : List UInt8) : Filler where
  interface := s.interface.answered os (.ofNat padlen)
  input := s.input.pushPADFrame (bytesFrom padData (os.memory (s.interface.receives + 1))
    (sliceStart padlen (calculatedPadlen padlen padData)) (calculatedPadlen padlen padData))

theorem fill_reply (hroom : s.input.padQueueFull = false) (hident : s.interface.padIdent ≠ [])
    (hpadlen : padlen ≤ 255) {padData : List UInt8} (hlen : padData.length = padlen + 1)
    (hreply : os.recvfrom s.interface.receives = .ok (messagePadData :: padData)) (fuel : ℕ) :
    fill os padlen (fuel + 2) s =
      ((fill os padlen (fuel + 1) (s.replied os padlen padData)).1,
        (fill os padlen (fuel + 1) (s.replied os padlen padData)).2.1,
        [.reply padData, .slice (sliceStart padlen (calculatedPadlen padlen padData))
          (calculatedPadlen padlen padData)] ++
          (fill os padlen (fuel + 1) (s.replied os padlen padData)).2.2) := by
  have hne : padData ≠ [] := List.ne_nil_of_length_eq_add_one hlen
  rw [fill]
  simp only [request, bind_apply, get_apply, hroom, if_false, Bool.false_eq_true,
    PadInterface.request_reply hident (by omega : padData.length < 2048) hreply, set_apply,
    emit_apply, pure_apply, ne_eq, hne, not_false_eq_true, if_true, hlen, pushReply_apply,
    List.append_nil, List.nil_append]
  rfl

theorem fill_outOfFuel (hroom : s.input.padQueueFull = false)
    (hident : s.interface.padIdent ≠ []) : (fill os padlen 1 s).1 = .error .outOfFuel := by
  simp only [fill, request, bind_apply, get_apply, hroom, if_false, Bool.false_eq_true,
    PadInterface.request, if_neg hident, PadInterface.receive, stop_apply]

theorem FillEnds.of_full (hfull : s.input.padQueueFull) (n : ℕ) : FillEnds os padlen s n := by
  refine ⟨1, ?_, ?_⟩
  · rw [fill_full hfull]
  · rw [fill_full hfull]
    exact Nat.zero_le n

theorem FillEnds.of_again (hroom : s.input.padQueueFull = false)
    (hident : s.interface.padIdent ≠ [])
    (hagain : os.recvfrom s.interface.receives = .error .again) (n : ℕ) :
    FillEnds os padlen s n := by
  refine ⟨2, ?_, ?_⟩
  · rw [fill_again hroom hident hagain]
  · rw [fill_again hroom hident hagain]
    exact Nat.zero_le n

theorem replies_cons_reply (padData : List UInt8) (start : ℤ) (size : ℕ) (events : List Event) :
    replies ([.reply padData, .slice start size] ++ events) = replies events + 1 := by
  simp [replies]

theorem fillEnds_reply_iff (hroom : s.input.padQueueFull = false)
    (hident : s.interface.padIdent ≠ []) (hpadlen : padlen ≤ 255) {padData : List UInt8}
    (hlen : padData.length = padlen + 1)
    (hreply : os.recvfrom s.interface.receives = .ok (messagePadData :: padData)) (n : ℕ) :
    FillEnds os padlen s n ↔ 0 < n ∧ FillEnds os padlen (s.replied os padlen padData) (n - 1) := by
  constructor
  · rintro ⟨_ | _ | fuel, hok, hcount⟩
    · cases hok
    · rw [fill_outOfFuel hroom hident] at hok
      cases hok
    · rw [fill_reply hroom hident hpadlen hlen hreply] at hok hcount
      rw [replies_cons_reply] at hcount
      exact ⟨by omega, fuel + 1, hok, by omega⟩
  · rintro ⟨hn, _ | fuel, hok, hcount⟩
    · cases hok
    · refine ⟨fuel + 2, ?_, ?_⟩
      · rw [fill_reply hroom hident hpadlen hlen hreply]
        exact hok
      · rw [fill_reply hroom hident hpadlen hlen hreply, replies_cons_reply]
        omega

end Step

section Queue

variable {os : Os} {padlen : ℕ} {s : Filler} {padData : List UInt8}

theorem padPort_replied : (s.replied os padlen padData).input.padPort = s.input.padPort :=
  Endpoint.padPort_pushPADFrame s.input _

theorem length_replied :
    (s.replied os padlen padData).input.padFrameQueue.length =
      s.input.padFrameQueue.length +
        if s.input.padPort = 0 ∨ calculatedPadlen padlen padData = 0 then 0 else 1 := by
  rw [Filler.replied]
  dsimp only
  rw [Endpoint.padFrameQueue_pushPADFrame, length_bytesFrom, List.length_append]
  split <;> rfl

/-- The frame that a reply stores is the first one of those that are counted. -/
theorem stored_replied
    (hreply : os.recvfrom s.interface.receives = .ok (messagePadData :: padData)) (n : ℕ) :
    (s.replied os padlen padData).input.padFrameQueue.length +
        stored os padlen (s.replied os padlen padData) n =
      s.input.padFrameQueue.length + stored os padlen s (n + 1) := by
  have hfirst : announces padlen (os.recvfrom s.interface.receives) =
      decide (calculatedPadlen padlen padData ≠ 0) := by
    rw [hreply]
    rfl
  have hrest (k : ℕ) : (s.replied os padlen padData).interface.receives + k =
      s.interface.receives + (k + 1) := by
    rw [Filler.replied, PadInterface.receives_answered]
    omega
  rw [length_replied, stored, stored, padPort_replied]
  by_cases hport : s.input.padPort = 0
  · simp [hport]
  · simp only [hport, false_or, if_false, List.range_succ_eq_map, List.countP_cons,
      List.countP_map, Nat.add_zero, hfirst, decide_eq_true_eq, hrest]
    by_cases hsize : calculatedPadlen padlen padData = 0
    · simp [hsize, Function.comp_def]
    · simp [hsize, Function.comp_def]
      omega

end Queue

theorem exists_le_succ_iff {P : ℕ → Prop} (r n : ℕ) :
    (∃ k ≤ n + 1, P (r + k)) ↔ P r ∨ ∃ k ≤ n, P (r + 1 + k) := by
  constructor
  · rintro ⟨_ | k, hk, h⟩
    · exact .inl h
    · exact .inr ⟨k, by omega, by rwa [Nat.add_right_comm]⟩
  · rintro (h | ⟨k, hk, h⟩)
    · exact ⟨0, by omega, h⟩
    · exact ⟨k + 1, by omega, by rwa [Nat.add_right_comm] at h⟩

section Ends

variable {os : Os} {padlen : ℕ} {s : Filler}

/-- There is nothing more within so many replies, or they fill the queue. -/
def StopsBy (os : Os) (padlen : ℕ) (s : Filler) (n : ℕ) : Prop :=
  (∃ k ≤ n, os.recvfrom (s.interface.receives + k) = .error .again) ∨
    maxPadFrameQueueSize ≤ s.input.padFrameQueue.length + stored os padlen s n

theorem padQueueFull_iff (s : Endpoint) :
    s.padQueueFull ↔ maxPadFrameQueueSize ≤ s.padFrameQueue.length := by
  simp [Endpoint.padQueueFull]

theorem StopsBy.of_full (hfull : s.input.padQueueFull) (n : ℕ) : StopsBy os padlen s n :=
  .inr (Nat.le_add_right_of_le ((padQueueFull_iff _).mp hfull))

theorem StopsBy.of_again (hagain : os.recvfrom s.interface.receives = .error .again) (n : ℕ) :
    StopsBy os padlen s n :=
  .inl ⟨0, Nat.zero_le n, hagain⟩

theorem stopsBy_reply_iff (hroom : s.input.padQueueFull = false) {padData : List UInt8}
    (hreply : os.recvfrom s.interface.receives = .ok (messagePadData :: padData)) (n : ℕ) :
    StopsBy os padlen s n ↔ 0 < n ∧ StopsBy os padlen (s.replied os padlen padData) (n - 1) := by
  have hmore : os.recvfrom s.interface.receives ≠ .error .again := by
    rw [hreply]
    exact fun h => nomatch h
  cases n with
  | zero =>
    refine iff_of_false ?_ fun h => h.1.false
    rintro (⟨k, hk, hagain⟩ | hfull)
    · obtain rfl := Nat.le_zero.mp hk
      exact hmore hagain
    · have hstored : stored os padlen s 0 = 0 := by simp [stored]
      rw [hstored] at hfull
      exact Bool.false_ne_true (hroom.symm.trans ((padQueueFull_iff _).mpr hfull))
  | succ n =>
    have hshift : (∃ k ≤ n + 1, os.recvfrom (s.interface.receives + k) = .error .again) ↔
        ∃ k ≤ n, os.recvfrom (s.interface.receives + 1 + k) = .error .again :=
      (exists_le_succ_iff (P := fun k => os.recvfrom k = .error .again) _ n).trans
        (or_iff_right hmore)
    rw [StopsBy, hshift, Nat.add_sub_cancel, ← stored_replied hreply]
    exact (and_iff_right (Nat.succ_pos n)).symm

/-- The loop takes at most so many replies, exactly if there are no more of them, or they fill the
queue. -/
theorem fillEnds_iff (hpadlen : padlen ≤ 255) (hreplies : ∀ k, Expected padlen (os.recvfrom k))
    (n : ℕ) (s : Filler) (hident : s.interface.padIdent ≠ []) :
    FillEnds os padlen s n ↔ StopsBy os padlen s n := by
  induction n using Nat.strong_induction_on generalizing s with
  | _ n ih =>
    by_cases hfull : s.input.padQueueFull
    · exact iff_of_true (.of_full hfull n) (.of_full hfull n)
    rw [Bool.not_eq_true] at hfull
    have hexpected := hreplies s.interface.receives
    rcases hrecv : os.recvfrom s.interface.receives with errno | datagram
    · rw [hrecv] at hexpected
      obtain rfl : errno = .again := hexpected
      exact iff_of_true (.of_again hfull hident hrecv n) (.of_again hrecv n)
    · rw [hrecv] at hexpected
      obtain ⟨padData, rfl, hlen⟩ := hexpected
      rw [fillEnds_reply_iff hfull hident hpadlen hlen hrecv, stopsBy_reply_iff hfull hrecv]
      apply and_congr_right
      intro hn
      apply ih (n - 1) (Nat.sub_lt hn Nat.one_pos)
      rw [Filler.replied, PadInterface.padIdent_answered]
      exact hident

/-- With replies of the expected size, a pass ends after at most as many of them as fit into the
queue, exactly if a request finds nothing by then, or there is a PAD port and enough of the replies
announce a frame. -/
theorem pass_ends_iff (hpadlen : 1 ≤ padlen ∧ padlen ≤ 255)
    (hreplies : ∀ k, Expected padlen (os.recvfrom k)) (hident : s.interface.padIdent ≠ []) :
    (∃ fuel, (pass os padlen fuel s).1 = .ok () ∧
      replies (pass os padlen fuel s).2.2 ≤ maxPadFrameQueueSize) ↔
      (∃ k ≤ maxPadFrameQueueSize,
        os.recvfrom (s.interface.receives + k) = .error .again) ∨
      maxPadFrameQueueSize ≤ s.input.padFrameQueue.length +
        if s.input.padPort = 0 then 0
        else (List.range maxPadFrameQueueSize).countP fun k =>
          announces padlen (os.recvfrom (s.interface.receives + k)) := by
  have hpass (fuel : ℕ) : pass os padlen fuel = fill os padlen fuel :=
    if_pos (Nat.one_le_iff_ne_zero.mp hpadlen.1)
  simp only [hpass]
  exact fillEnds_iff hpadlen.2 hreplies maxPadFrameQueueSize s hident

end Ends

def endlessOs (datagram : List UInt8) : Os where
  sendto _ packet := .ok packet.length
  recvfrom _ := .ok datagram
  memory _ _ := 0

theorem expected_endless (k : ℕ) : Expected 1 ((endlessOs [2, 7, 1]).recvfrom k) :=
  ⟨[7, 1], rfl, rfl⟩

def opened (padPort : UInt32) : Filler where
  interface := { padIdent := ['p'] }
  input := .new [] [] padPort 0

/-- Without a PAD port, the loop takes replies forever. -/
theorem pass_endless :
    ¬ ∃ fuel, (pass (endlessOs [2, 7, 1]) 1 fuel (opened 0)).1 = .ok () := by
  rintro ⟨fuel, hok⟩
  have hnone (n : ℕ) : stored (endlessOs [2, 7, 1]) 1 (opened 0) n = 0 := if_pos rfl
  rcases (fillEnds_iff (by decide) expected_endless _ (opened 0) (by decide)).mp
    ⟨fuel, hok, le_rfl⟩ with ⟨k, -, hagain⟩ | hfull
  · cases hagain
  · rw [hnone] at hfull
    exact absurd hfull (by decide)

theorem pass_ends_port :
    ∃ fuel, (pass (endlessOs [2, 7, 1]) 1 fuel (opened 9405)).1 = .ok () ∧
      replies (pass (endlessOs [2, 7, 1]) 1 fuel (opened 9405)).2.2 ≤ maxPadFrameQueueSize :=
  (pass_ends_iff (by decide) expected_endless (by decide)).mpr (.inr (by decide))

end SourceCompanion.Pad
