import Mathlib.Data.List.Flatten
import Mathlib.Data.List.Infix

/-! # Packets in a stream

A stream carries packets one after the other and may end anywhere. A packet announces its size
near its beginning, so a reader finds the packets that are complete.
-/

namespace SourceCompanion

/-- How the beginning of a packet announces its size. What follows does not change it. -/
structure Framing (α : Type*) where
  size : List α → Option ℕ
  pos : ∀ {stream n}, size stream = some n → 0 < n
  size_append : ∀ {stream n} (rest), size stream = some n → size (stream ++ rest) = some n

namespace Framing

variable {α : Type*} (framing : Framing α)

/-- The first packet and the rest of the stream, if the packet is complete. -/
def next (stream : List α) : Option (List α × List α) :=
  (framing.size stream).bind fun n =>
    if n ≤ stream.length then some (stream.take n, stream.drop n) else none

def split : ℕ → List α → List (List α)
  | 0, _ => []
  | fuel + 1, stream =>
    match framing.next stream with
    | none => []
    | some (packet, rest) => packet :: split fuel rest

def packets (stream : List α) : List (List α) := framing.split stream.length stream

def Delimited (packet : List α) : Prop := framing.size packet = some packet.length

instance (packet : List α) : Decidable (framing.Delimited packet) :=
  inferInstanceAs (Decidable (_ = _))

/-- The beginning of a packet that announces more than there is. -/
def Incomplete (torn : List α) : Prop := framing.next torn = none

variable {framing} {packet rest stream torn : List α}

theorem next_append (hpacket : framing.Delimited packet) (rest : List α) :
    framing.next (packet ++ rest) = some (packet, rest) := by
  rw [next, framing.size_append rest hpacket, Option.bind_some,
    if_pos (by rw [List.length_append]; omega), List.take_left, List.drop_left]

theorem append_of_next (h : framing.next stream = some (packet, rest)) :
    packet ++ rest = stream ∧ packet ≠ [] := by
  obtain ⟨n, hsize, hn⟩ := Option.bind_eq_some_iff.mp h
  split at hn
  · rename_i hle
    obtain ⟨rfl, rfl⟩ := Prod.mk.inj (Option.some.inj hn)
    refine ⟨List.take_append_drop n stream, List.ne_nil_of_length_pos ?_⟩
    rw [List.length_take_of_le hle]
    exact framing.pos hsize
  · cases hn

theorem next_mono (h : framing.next stream = some (packet, rest)) (more : List α) :
    framing.next (stream ++ more) = some (packet, rest ++ more) := by
  obtain ⟨n, hsize, hn⟩ := Option.bind_eq_some_iff.mp h
  split at hn
  · rename_i hle
    obtain ⟨rfl, rfl⟩ := Prod.mk.inj (Option.some.inj hn)
    rw [next, framing.size_append more hsize, Option.bind_some,
      if_pos (by rw [List.length_append]; omega), List.take_append_of_le_length hle,
      List.drop_append_of_le_length hle]
  · cases hn

theorem incomplete_of_append {missing : List α} (h : framing.Delimited (torn ++ missing))
    (hmissing : missing ≠ []) : framing.Incomplete torn := by
  cases hsize : framing.size torn with
  | none => rw [Incomplete, next, hsize, Option.bind_none]
  | some n =>
    have hn : n = torn.length + missing.length := by
      have := (framing.size_append missing hsize).symm.trans h
      rwa [List.length_append, Option.some.injEq] at this
    have := List.length_pos_iff.mpr hmissing
    rw [Incomplete, next, hsize, Option.bind_some, if_neg (by omega)]

theorem incomplete_nil : framing.Incomplete [] := by
  rw [Incomplete]
  cases hnext : framing.next [] with
  | none => rfl
  | some p =>
    obtain ⟨happend, hne⟩ := append_of_next hnext
    exact absurd (List.append_eq_nil_iff.mp happend).1 hne

/-! ## Splitting -/

/-- A packet takes at least one element, so the length of the stream suffices. -/
theorem split_congr {fuel fuel' : ℕ} (h : stream.length ≤ fuel) (h' : stream.length ≤ fuel') :
    framing.split fuel stream = framing.split fuel' stream := by
  have hnil {fuel : ℕ} : framing.split fuel [] = [] := by
    cases fuel with
    | zero => rfl
    | succ fuel => rw [split, show framing.next [] = none from incomplete_nil]
  induction fuel generalizing stream fuel' with
  | zero =>
    obtain rfl := List.length_eq_zero_iff.mp (Nat.le_zero.mp h)
    rw [hnil, hnil]
  | succ fuel ih =>
    cases fuel' with
    | zero =>
      obtain rfl := List.length_eq_zero_iff.mp (Nat.le_zero.mp h')
      rw [hnil, hnil]
    | succ fuel' =>
      rw [split, split]
      cases hnext : framing.next stream with
      | none => rfl
      | some p =>
        obtain ⟨rfl, hne⟩ :=
          append_of_next (show framing.next stream = some (p.1, p.2) from hnext)
        have hpos := List.length_pos_iff.mpr hne
        rw [List.length_append] at h h'
        exact congrArg (p.1 :: ·) (ih (by omega) (by omega))

theorem packets_of_none (h : framing.Incomplete torn) : framing.packets torn = [] := by
  rw [packets]
  cases torn.length with
  | zero => rfl
  | succ fuel => rw [split, show framing.next torn = none from h]

theorem packets_of_some (h : framing.next stream = some (packet, rest)) :
    framing.packets stream = packet :: framing.packets rest := by
  obtain ⟨hstream, hne⟩ := append_of_next h
  have hpos := List.length_pos_iff.mpr hne
  have hlength : stream.length = packet.length + rest.length := by
    rw [← hstream, List.length_append]
  have hfuel : stream.length ≤ rest.length + packet.length - 1 + 1 := by omega
  rw [packets, split_congr le_rfl hfuel, split, h]
  exact congrArg (packet :: ·) (split_congr (by omega) le_rfl)

theorem packets_append {sent : List (List α)} (hsent : ∀ packet ∈ sent, framing.Delimited packet)
    (htorn : framing.Incomplete torn) : framing.packets (sent.flatten ++ torn) = sent := by
  induction sent with
  | nil => exact packets_of_none htorn
  | cons packet sent ih =>
    obtain ⟨hpacket, hsent⟩ := List.forall_mem_cons.mp hsent
    rw [List.flatten_cons, List.append_assoc, packets_of_some (next_append hpacket _), ih hsent]

theorem packets_prefix {arrived : List α} (h : arrived <+: stream) :
    framing.packets arrived <+: framing.packets stream := by
  obtain ⟨more, rfl⟩ := h
  induction hn : arrived.length using Nat.strong_induction_on generalizing arrived with
  | _ n ih =>
    cases hnext : framing.next arrived with
    | none =>
      rw [packets_of_none hnext]
      exact List.nil_prefix
    | some p =>
      obtain ⟨rfl, hne⟩ :=
        append_of_next (show framing.next arrived = some (p.1, p.2) from hnext)
      have hpos := List.length_pos_iff.mpr hne
      rw [packets_of_some hnext, packets_of_some (next_mono hnext more)]
      rw [List.length_append] at hn
      exact (List.prefix_cons_inj _).mpr (ih p.2.length (by omega) rfl)

end Framing

end SourceCompanion
