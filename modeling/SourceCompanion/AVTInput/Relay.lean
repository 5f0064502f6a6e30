import SourceCompanion.AVTInput.Encode
import SourceCompanion.AVTInput.Superframe
import SourceCompanion.OrderedQueue.Reorder

/-! # Relaying an encoder

An encoder sends numbered frames, and the network delivers them out of order, but displaced by
less than the jitter buffer holds. As long as the queue has room for all of them, the input hands
out the superframes of the encoder, each once and in order.
-/

namespace SourceCompanion.AVTInput

open Bytes OrderedQueue

/-! ## The encoder -/

/-- The frames of an encoder. Their numbers count the cycle of the queue, their datagrams are
received whole, and their CRC flags stand where the decoder looks for them, too. -/
structure Encoder (frameSize : ℕ) where
  frame : ℕ → STIFrame
  rtp : ℕ → Option RTPHeader
  number : ∀ n, ((frame n).dfcth * 250 + (frame n).dfctl : ℕ) = n % 5000
  size : ∀ n, (frame n).payload.length = frameSize
  whole : ∀ n, ((rtp n).elim [] RTPHeader.encode ++ (frame n).encode).length ≤ maxAVTFrameSize
  crc : ∀ n, ((frame n).identifierLow : ℕ) % 2 = (frame n).crc.isSome.toNat

namespace Encoder

variable {frameSize : ℕ} (e : Encoder frameSize)

def received (beyond : ℕ → UInt8) (n : ℕ) : Datagram :=
  .receive ((e.rtp n).elim [] RTPHeader.encode ++ (e.frame n).encode) beyond

/-- What the queue stores of a frame that is received at a time. -/
def queueData (time : ℕ → ℤ) (n : ℕ) : OrderedQueueData := ⟨(e.frame n).payload, time n⟩

def superframe (k : ℕ) : List UInt8 := (List.range 5).flatMap fun i => (e.frame (5 * k + i)).payload

def call (time : ℕ → ℤ) (beyond : ℕ → ℕ → UInt8) (bufSize : ℕ) (arriving : List ℕ) : Call where
  pending := arriving.map fun n => (e.received (beyond n) n, time n)
  bufSize

theorem received_eq (beyond : ℕ → UInt8) (n : ℕ) :
    e.received beyond n = (e.frame n).datagram (e.rtp n) beyond := by
  rw [received, Datagram.receive, List.take_of_length_le (e.whole n)]
  rfl

theorem accepted (beyond : ℕ → UInt8) (n : ℕ) :
    (e.received beyond n).Accepted frameSize (STIFrame.base (e.rtp n)) := by
  rw [received_eq]
  refine ⟨?_, STIFrame.base?_datagram .., ?_, ?_⟩
  · rw [STIFrame.datagram, STIFrame.encode, List.length_append, List.length_append,
      List.length_append, STIFrame.length_header, e.size]
    omega
  · rw [STIFrame.nst_datagram]
    exact Nat.le_add_left 1 _
  · have hcrc := e.crc n
    rw [STIFrame.stl_datagram, STIFrame.crcstf_datagram, hcrc, STIFrame.stl, e.size]
    cases (e.frame n).crc <;> rfl

theorem payload_found (hsize : frameSize < 2 ^ 31) (beyond : ℕ → UInt8) (n : ℕ) :
    (e.received beyond n).payload ((e.received beyond n).found (STIFrame.base (e.rtp n))) =
      (e.frame n).payload := by
  have hdata := (Datagram.dataSize_found_eq_iff hsize).mpr (e.accepted beyond n).stl_eq
  have hslice := (e.frame n).slice_payload (e.rtp n) beyond
  rw [← received_eq, e.size] at hslice
  rw [Datagram.payload, hdata]
  generalize ((e.received beyond n).found (STIFrame.base (e.rtp n))).offset = offset at hslice ⊢
  have hlength := congrArg List.length hslice
  rw [e.size, slice, List.length_take, List.length_drop] at hlength
  rw [← hslice]
  refine List.ext_getElem (by simp [slice]; omega) fun i hi hi' => ?_
  have hlt : offset + i < (e.received beyond n).bytes.length := by
    simp only [List.length_map, List.length_range] at hi
    omega
  simp [slice, Datagram.byteAt, List.getElem?_eq_getElem hlt]

theorem readFrame_received (hsize : frameSize < 2 ^ 31) {s : AVTInput}
    (hs : s.dab24msFrameSize = frameSize) (beyond : ℕ → UInt8) (n : ℕ) (ts : ℤ) :
    ∃ previousRtpIndex, s.readFrame (e.received beyond n) ts = (true, { s with
      previousRtpIndex
      ordered := s.ordered.push (n % 5000) ⟨(e.frame n).payload, ts⟩ }) := by
  obtain ⟨found, next, reads, hrec, hfound, -⟩ :=
    (e.received beyond n).frameToPush_apply hsize s.previousRtpIndex
  have hacc := e.accepted beyond n
  obtain rfl := (hfound _).mpr ⟨_, hacc, rfl⟩
  have hpos : (e.received beyond n).bytes.length > 0 := Nat.zero_lt_of_lt hacc.length_lt
  have hnumber :
      ((e.received beyond n).found (STIFrame.base (e.rtp n))).frameNumber = n % 5000 := by
    rw [received_eq, STIFrame.frameNumber_datagram, e.number]
  refine ⟨next, ?_⟩
  rw [readFrame, if_pos hpos, hs, hrec]
  simp only [e.payload_found hsize, hnumber]

end Encoder

/-! ## The assembly -/

section Collected

variable {frameSize : ℕ} (e : Encoder frameSize) (time : ℕ → ℤ) (n₀ : ℕ)

/-- The first superframe of which no frame comes before `n₀`. -/
def firstSuperframe : ℕ := (n₀ + 4) / 5

/-- The assembly after `j` frames were popped and `r` superframes handed out. Frames before the
first superframe are skipped. -/
structure Collected (j r : ℕ) (a : Assembly) : Prop where
  buffer : a.currentFrame.length = 5 * frameSize
  size : a.currentFrameSize = a.nbFrames * frameSize
  bytes : a.currentFrame.take a.currentFrameSize = (List.range a.nbFrames).flatMap fun i =>
    (e.frame (5 * (firstSuperframe n₀ + r) + i)).payload
  count_le : a.nbFrames ≤ 5
  skipping : n₀ + j ≤ 5 * firstSuperframe n₀ →
    a.frameAligned = false ∧ a.nbFrames = 0 ∧ r = 0
  aligned : ∀ elapsed : ℕ, n₀ + j = 5 * firstSuperframe n₀ + 1 + elapsed →
    a.frameAligned = true ∧ n₀ + j = 5 * (firstSuperframe n₀ + r) + a.nbFrames ∧
      a.frameZeroTimestamp = time (5 * firstSuperframe n₀) + Assembly.partDuration * elapsed

variable {e time n₀} {j r : ℕ} {a : Assembly}

theorem collected_init :
    Collected e time n₀ 0 0 { currentFrame := List.replicate (5 * frameSize) 0 } where
  buffer := List.length_replicate
  size := by simp
  bytes := by simp
  count_le := by simp
  skipping _ := ⟨rfl, rfl, rfl⟩
  aligned elapsed h := by
    unfold firstSuperframe at h
    omega

theorem Collected.append (h : Collected e time n₀ j r a) (hlt : a.nbFrames < 5)
    (hplace : n₀ + j = 5 * (firstSuperframe n₀ + r) + a.nbFrames) {a' : Assembly}
    (hframe : a'.currentFrame =
      memcpy a.currentFrame a.currentFrameSize (e.frame (n₀ + j)).payload)
    (hsize : a'.currentFrameSize = a.currentFrameSize + (e.frame (n₀ + j)).payload.length)
    (hcount : a'.nbFrames = a.nbFrames + 1) (haligned : a'.frameAligned = true)
    (htime : ∀ elapsed : ℕ, n₀ + j = 5 * firstSuperframe n₀ + elapsed →
      a'.frameZeroTimestamp =
        time (5 * firstSuperframe n₀) + Assembly.partDuration * elapsed) :
    Collected e time n₀ (j + 1) r a' := by
  have hle : (a.nbFrames + 1) * frameSize ≤ 5 * frameSize := Nat.mul_le_mul_right _ hlt
  have hfit : a.currentFrameSize + (e.frame (n₀ + j)).payload.length ≤ a.currentFrame.length := by
    rw [Nat.succ_mul] at hle
    rw [h.size, h.buffer, e.size]
    exact hle
  refine ⟨?_, ?_, ?_, ?_, fun hle => ?_, fun elapsed hj => ⟨haligned, ?_, ?_⟩⟩
  · rw [hframe, length_memcpy hfit, h.buffer]
  · rw [hsize, hcount, h.size, e.size, Nat.succ_mul]
  · rw [hframe, hsize, take_memcpy (by omega), h.bytes, hcount, List.range_succ,
      List.flatMap_append, List.flatMap_singleton, hplace]
  · rw [hcount]
    exact hlt
  · omega
  · omega
  · exact htime elapsed (by omega)

theorem Collected.take (h : Collected e time n₀ j r a) (hlt : a.nbFrames < 5) :
    Collected e time n₀ (j + 1) r
      (a.takePart (((n₀ + j : ℕ) : ℤ) % maxQueueSize) (e.queueData time (n₀ + j))) := by
  have hnonneg : 0 ≤ ((n₀ + j : ℕ) : ℤ) % maxQueueSize := by
    simp only [maxQueueSize]
    omega
  have hindex : (((n₀ + j : ℕ) : ℤ) % maxQueueSize).tmod 5 = ((n₀ + j) % 5 : ℕ) := by
    rw [Int.tmod_eq_emod_of_nonneg hnonneg]
    simp only [maxQueueSize]
    omega
  rcases Nat.lt_trichotomy (n₀ + j) (5 * firstSuperframe n₀) with hbefore | hfirst | hbehind
  · obtain ⟨ha, hn, hr⟩ := h.skipping (Nat.le_of_lt hbefore)
    have hoff : ¬((n₀ + j) % 5 : ℕ) = (0 : ℤ) := by
      unfold firstSuperframe at hbefore
      omega
    have hskip :
        a.takePart (((n₀ + j : ℕ) : ℤ) % maxQueueSize) (e.queueData time (n₀ + j)) = a := by
      rw [Assembly.takePart, if_pos (by simp [ha]), hindex, if_neg hoff]
    rw [hskip]
    exact ⟨h.buffer, h.size, h.bytes, h.count_le, fun _ => ⟨ha, hn, hr⟩, by omega⟩
  · obtain ⟨ha, hn, hr⟩ := h.skipping (Nat.le_of_eq hfirst)
    have hon : ((n₀ + j) % 5 : ℕ) = (0 : ℤ) := by omega
    rw [Assembly.takePart, if_pos (by simp [ha]), hindex, if_pos hon]
    refine h.append hlt (by omega) rfl rfl rfl rfl fun elapsed hj => ?_
    obtain rfl : elapsed = 0 := by omega
    simp [Encoder.queueData, hfirst]
  · obtain ⟨elapsed, hj⟩ := Nat.exists_eq_add_of_lt hbehind
    obtain ⟨ha, hplace, htime⟩ := h.aligned elapsed (by omega)
    have hon : ((n₀ + j) % 5 : ℕ) = (a.nbFrames : ℤ) := by omega
    rw [Assembly.takePart, if_neg (by simp [ha]), hindex, if_pos hon]
    refine h.append hlt hplace rfl rfl rfl ha fun elapsed' hj' => ?_
    obtain rfl : elapsed' = elapsed + 1 := by omega
    dsimp only
    rw [htime]
    push_cast
    ring

/-- A complete superframe is handed out with the time of its last frame. -/
theorem Collected.finish (h : Collected e time n₀ j r a) {bufSize : ℕ}
    (hbuf : 5 * frameSize ≤ bufSize) :
    (a.nbFrames < 5 ∧ a.finish bufSize = (none, a)) ∨
      ∃ a', a.finish bufSize = (some (e.superframe (firstSuperframe n₀ + r),
        time (5 * firstSuperframe n₀) + Assembly.partDuration * (5 * r + 4 : ℕ)), a') ∧
        Collected e time n₀ j (r + 1) a' := by
  by_cases hdone : a.nbFrames = 5
  · right
    have hbehind : 5 * firstSuperframe n₀ < n₀ + j := by
      by_contra hle
      obtain ⟨-, hn, -⟩ := h.skipping (Nat.le_of_not_lt hle)
      omega
    obtain ⟨elapsed, hj⟩ := Nat.exists_eq_add_of_lt hbehind
    obtain ⟨ha, hplace, htime⟩ := h.aligned elapsed (by omega)
    obtain rfl : elapsed = 5 * r + 4 := by omega
    have hroom : a.nbFrames = 5 ∧ a.currentFrameSize ≤ bufSize :=
      ⟨hdone, by rw [h.size, hdone]; exact hbuf⟩
    refine ⟨{ a with currentFrameSize := 0, nbFrames := 0 }, ?_, h.buffer, by simp, by simp,
      by simp, by omega, fun elapsed' hj' => ⟨ha, by simp only; omega, ?_⟩⟩
    · rw [Assembly.finish, if_pos hroom, h.bytes, hdone, htime]
      rfl
    · obtain rfl : elapsed' = 5 * r + 4 := by omega
      exact htime
  · left
    have hle := h.count_le
    refine ⟨by omega, ?_⟩
    rw [Assembly.finish, if_neg fun hd => hdone hd.1]

end Collected

/-! ## The queue -/

section Overruns

variable {δ : Type*} {q : OrderedQueue δ}

theorem overruns_push (index : ℕ) (oqd : δ) : (q.push index oqd).overruns =
    if q.size < q.capacity then q.overruns else q.overruns + 1 := by
  unfold OrderedQueue.push
  split <;> rfl

theorem overruns_pop : q.pop.2.overruns = q.overruns := by
  unfold OrderedQueue.pop
  split
  · split <;> rfl
  · rfl

theorem overruns_le_readFrame (s : AVTInput) (d : Datagram) (ts : ℤ) :
    s.ordered.overruns ≤ (s.readFrame d ts).2.ordered.overruns := by
  unfold readFrame
  split
  · dsimp only
    split
    · dsimp only
      rw [overruns_push]
      split <;> omega
    · exact le_rfl
  · exact le_rfl

theorem overruns_le_readFrames (s : AVTInput) (pending : List (Datagram × ℤ)) :
    s.ordered.overruns ≤ (s.readFrames pending).ordered.overruns := by
  induction pending generalizing s with
  | nil => exact le_rfl
  | cons p pending ih =>
    have hread := overruns_le_readFrame s p.1 p.2
    rw [readFrames]
    generalize s.readFrame p.1 p.2 = answer at hread ⊢
    rcases answer with ⟨_ | _, s'⟩
    · exact hread
    · exact hread.trans (ih s')

theorem overruns_assembleParts (fuel : ℕ) (s : AVTInput) :
    (assembleParts fuel s).ordered.overruns = s.ordered.overruns := by
  induction fuel generalizing s with
  | zero => rfl
  | succ fuel ih =>
    have hpop := overruns_pop (q := s.ordered)
    rw [assembleParts]
    generalize s.ordered.pop = answer at hpop ⊢
    rcases answer with ⟨_ | ⟨index, queueData⟩, ordered⟩
    · split
      · exact hpop
      · rfl
    · split
      · dsimp only
        split
        · exact hpop
        · rw [ih]
          exact hpop
      · rfl

theorem overruns_getNextFrame (s : AVTInput) (call : Call) :
    (s.getNextFrame call).2.ordered.overruns =
      (s.readFrames call.pending).ordered.overruns := overruns_assembleParts _ _

theorem overruns_le_state (s : AVTInput) (calls : List Call) :
    s.ordered.overruns ≤ (Mealy.state getNextFrame s calls).ordered.overruns := by
  induction calls generalizing s with
  | nil => exact le_rfl
  | cons call calls ih =>
    rw [Mealy.state_cons]
    refine (overruns_le_readFrames s call.pending).trans ?_
    rw [← overruns_getNextFrame]
    exact ih _

end Overruns

/-! ## The run -/

section Run

/-- A frame arrives after some others: for the first time, and displaced by less than `D`. The
first frame to arrive is `n₀`. -/
structure Displaced (n₀ D : ℕ) (earlier : List ℕ) (n : ℕ) : Prop where
  once : n ∉ earlier
  first : earlier = [] → n = n₀
  from_first : n₀ ≤ n
  displaced : ∀ m, n₀ ≤ m → m + D ≤ n → m ∈ earlier

instance (n₀ D : ℕ) (earlier : List ℕ) (n : ℕ) : Decidable (Displaced n₀ D earlier n) :=
  decidable_of_iff (n ∉ earlier ∧ (earlier = [] → n = n₀) ∧ n₀ ≤ n ∧
      ∀ m < n + 1, n₀ ≤ m → m + D ≤ n → m ∈ earlier)
    ⟨fun ⟨honce, hfirst, hfrom, hbound⟩ =>
      ⟨honce, hfirst, hfrom, fun m hm hmn => hbound m (by omega) hm hmn⟩,
      fun h => ⟨h.once, h.first, h.from_first, fun m _ => h.displaced m⟩⟩

/-- After some others, frames arrive that are displaced by less than `D`. -/
def ArriveAfter (n₀ D : ℕ) : List ℕ → List ℕ → Prop
  | _, [] => True
  | earlier, n :: arriving =>
    Displaced n₀ D earlier n ∧ ArriveAfter n₀ D (earlier ++ [n]) arriving

instance decidableArriveAfter (n₀ D : ℕ) :
    ∀ earlier arriving, Decidable (ArriveAfter n₀ D earlier arriving)
  | _, [] => isTrue trivial
  | earlier, n :: arriving =>
    have := decidableArriveAfter n₀ D (earlier ++ [n]) arriving
    inferInstanceAs (Decidable (Displaced n₀ D earlier n ∧ _))

variable {frameSize : ℕ} (e : Encoder frameSize) (time : ℕ → ℤ) (n₀ D : ℕ)

/-- The input after the frames `P` arrived, `j` frames were popped and `r` superframes handed
out. -/
structure Relays (P : List ℕ) (j r : ℕ) (s : AVTInput) : Prop where
  frameSize_eq : s.dab24msFrameSize = frameSize
  maxIndex : s.ordered.maxIndex = maxQueueSize
  capacity : D ≤ s.ordered.capacity
  capacity_le : 2 * (s.ordered.capacity : ℤ) ≤ maxQueueSize
  window : Reorder.Window s.ordered n₀ D (e.queueData time) P j
  collected : Collected e time n₀ j r s.assembly

variable {e time n₀ D} {P : List ℕ} {j r : ℕ} {s : AVTInput}

theorem ArriveAfter.append {v w : List ℕ} (h : ArriveAfter n₀ D P (v ++ w)) :
    ArriveAfter n₀ D P v ∧ ArriveAfter n₀ D (P ++ v) w := by
  induction v generalizing P with
  | nil => exact ⟨trivial, by simpa using h⟩
  | cons n v ih =>
    obtain ⟨hn, hrest⟩ := h
    obtain ⟨hv, hw⟩ := ih hrest
    exact ⟨⟨hn, hv⟩, by simpa using hw⟩

/-- The frames that wait at the socket get into the queue. -/
theorem Relays.readFrames (h : Relays e time n₀ D P j r s) (hlt : frameSize < 2 ^ 31)
    (beyond : ℕ → ℕ → UInt8) {arriving : List ℕ} (harrive : ArriveAfter n₀ D P arriving)
    (bufSize : ℕ)
    (hroom : (s.readFrames (e.call time beyond bufSize arriving).pending).ordered.overruns = 0) :
    Relays e time n₀ D (P ++ arriving) j r
      (s.readFrames (e.call time beyond bufSize arriving).pending) := by
  induction arriving generalizing s P with
  | nil => simpa [Encoder.call, AVTInput.readFrames] using h
  | cons n arriving ih =>
    obtain ⟨hn, harrive⟩ := harrive
    obtain ⟨previousRtpIndex, hread⟩ :=
      e.readFrame_received hlt h.frameSize_eq (beyond n) n (time n)
    have hpending : s.readFrames (e.call time beyond bufSize (n :: arriving)).pending =
        AVTInput.readFrames { s with
          previousRtpIndex
          ordered := s.ordered.push (n % 5000) ⟨(e.frame n).payload, time n⟩ }
          (e.call time beyond bufSize arriving).pending := by
      rw [Encoder.call, List.map_cons, AVTInput.readFrames, hread]
      rfl
    rw [hpending] at hroom ⊢
    have hsize : s.ordered.size < s.ordered.capacity := by
      by_contra hfull
      have hle := overruns_le_readFrames { s with
        previousRtpIndex
        ordered := s.ordered.push (n % 5000) ⟨(e.frame n).payload, time n⟩ }
        (e.call time beyond bufSize arriving).pending
      rw [hroom] at hle
      dsimp only at hle
      rw [overruns_push, if_neg hfull] at hle
      omega
    have hcycle : s.ordered.maxIndex.toNat = 5000 := by rw [h.maxIndex]; rfl
    have hwindow := h.window.push (h.maxIndex ▸ h.capacity_le) h.capacity hsize hn.first
      hn.from_first hn.once hn.displaced
    rw [hcycle] at hwindow
    rw [show P ++ n :: arriving = P ++ [n] ++ arriving by simp]
    refine ih ⟨h.frameSize_eq, ?_, ?_, ?_, hwindow, h.collected⟩ harrive hroom
    · exact (maxIndex_push ..).trans h.maxIndex
    · exact h.capacity.trans_eq (capacity_push ..).symm
    · dsimp only
      rw [capacity_push]
      exact h.capacity_le

theorem Relays.pop (h : Relays e time n₀ D P j r s) (hlt : s.assembly.nbFrames < 5)
    (hn : n₀ + j ∈ P) :
    ∃ ordered, s.ordered.pop = (some (((n₀ + j : ℕ) : ℤ) % maxQueueSize,
        e.queueData time (n₀ + j)), ordered) ∧ ordered.size + 1 = s.ordered.size ∧
      Relays e time n₀ D P (j + 1) r { s with
        ordered
        assembly := s.assembly.takePart (((n₀ + j : ℕ) : ℤ) % maxQueueSize)
          (e.queueData time (n₀ + j)) } := by
  rcases h.window.pop h.capacity with ⟨-, hpop, hwindow⟩ | ⟨hnot, -⟩
  · rw [h.maxIndex] at hpop
    rcases s.ordered.pop_cases with ⟨hnone, -⟩ | ⟨ordered, k, d, hsome, hframe⟩
    · rw [hnone] at hpop
      cases hpop
    · rw [hsome] at hpop hwindow
      obtain ⟨rfl, rfl⟩ := Prod.mk.inj (Option.some.inj hpop)
      have hsize := hframe.size
      refine ⟨ordered, hsome, by omega, h.frameSize_eq, hframe.maxIndex.trans h.maxIndex,
        h.capacity.trans_eq hframe.capacity.symm, ?_, hwindow, h.collected.take hlt⟩
      dsimp only
      rw [hframe.capacity]
      exact h.capacity_le
  · exact absurd hn hnot

theorem Relays.pop_none (h : Relays e time n₀ D P j r s) (hn : n₀ + j ∉ P) :
    s.ordered.pop = (none, s.ordered) := by
  rcases h.window.pop h.capacity with ⟨hin, -⟩ | ⟨-, hpop⟩
  · exact absurd hin hn
  · exact hpop

theorem Relays.assembleParts (h : Relays e time n₀ D P j r s) (hpos : 0 < frameSize) {fuel : ℕ}
    (hfuel : s.ordered.size ≤ fuel) :
    ∃ j', Relays e time n₀ D P j' r (AVTInput.assembleParts fuel s) ∧
      ((AVTInput.assembleParts fuel s).assembly.nbFrames < 5 → n₀ + j' ∉ P) := by
  induction fuel generalizing s j with
  | zero =>
    refine ⟨j, h, fun hlt hn => ?_⟩
    obtain ⟨ordered, -, hsize, -⟩ := h.pop hlt hn
    omega
  | succ fuel ih =>
    rw [AVTInput.assembleParts]
    by_cases hlt : s.assembly.nbFrames < 5
    · rw [if_pos hlt]
      by_cases hn : n₀ + j ∈ P
      · obtain ⟨ordered, hpop, hsize, hnext⟩ := h.pop hlt hn
        have hne : (e.queueData time (n₀ + j)).buf ≠ [] := by
          refine List.ne_nil_of_length_pos ?_
          rw [Encoder.queueData, e.size]
          exact hpos
        rw [hpop]
        dsimp only
        rw [if_neg hne]
        exact ih hnext (by dsimp only; omega)
      · rw [h.pop_none hn]
        exact ⟨j, h, fun _ => hn⟩
    · rw [if_neg hlt]
      exact ⟨j, h, fun hlt' => absurd hlt' hlt⟩

/-- The superframe that is handed out after `r` others, with its time. -/
def answer (e : Encoder frameSize) (time : ℕ → ℤ) (n₀ r : ℕ) : List UInt8 × ℤ :=
  (e.superframe (firstSuperframe n₀ + r),
    time (5 * firstSuperframe n₀) + Assembly.partDuration * (5 * r + 4 : ℕ))

theorem Relays.getNextFrame (h : Relays e time n₀ D P j r s) (hpos : 0 < frameSize)
    (hlt : frameSize < 2 ^ 31) (beyond : ℕ → ℕ → UInt8) {arriving : List ℕ}
    (harrive : ArriveAfter n₀ D P arriving) {bufSize : ℕ} (hbuf : 5 * frameSize ≤ bufSize)
    (hroom : (s.getNextFrame (e.call time beyond bufSize arriving)).2.ordered.overruns = 0) :
    ∃ j', ((s.getNextFrame (e.call time beyond bufSize arriving)).1 = none ∧
        (s.getNextFrame (e.call time beyond bufSize arriving)).2.assembly.nbFrames < 5 ∧
        n₀ + j' ∉ P ++ arriving ∧ Relays e time n₀ D (P ++ arriving) j' r
          (s.getNextFrame (e.call time beyond bufSize arriving)).2) ∨
      ((s.getNextFrame (e.call time beyond bufSize arriving)).1 = some (answer e time n₀ r) ∧
        Relays e time n₀ D (P ++ arriving) j' (r + 1)
          (s.getNextFrame (e.call time beyond bufSize arriving)).2) := by
  rw [overruns_getNextFrame] at hroom
  have hread := h.readFrames hlt beyond harrive bufSize hroom
  obtain ⟨j', hparts, hmissing⟩ := hread.assembleParts hpos le_rfl
  have hbufSize : (e.call time beyond bufSize arriving).bufSize = bufSize := rfl
  refine ⟨j', ?_⟩
  rw [AVTInput.getNextFrame, hbufSize]
  dsimp only
  generalize AVTInput.assembleParts _ _ = s' at hparts hmissing ⊢
  rcases hparts.collected.finish hbuf with ⟨hcount, hfinish⟩ | ⟨a', hfinish, hcollected⟩
  · rw [hfinish]
    exact Or.inl ⟨rfl, hcount, hmissing hcount, hparts⟩
  · rw [hfinish]
    exact Or.inr ⟨rfl, { hparts with collected := hcollected }⟩

theorem Relays.run (h : Relays e time n₀ D P j r s) (hpos : 0 < frameSize)
    (hlt : frameSize < 2 ^ 31) (beyond : ℕ → ℕ → UInt8) {bufSize : ℕ}
    (hbuf : 5 * frameSize ≤ bufSize) {network : List (List ℕ)}
    (harrive : ArriveAfter n₀ D P network.flatten)
    (hroom : (Mealy.state AVTInput.getNextFrame s
      (network.map (e.call time beyond bufSize))).ordered.overruns = 0) :
    ∃ m, (Mealy.outputs AVTInput.getNextFrame s
        (network.map (e.call time beyond bufSize))).reduceOption =
          (List.range m).map (fun i => answer e time n₀ (r + i)) ∧
      ((Mealy.outputs AVTInput.getNextFrame s
          (network.map (e.call time beyond bufSize))).getLast? = some none →
        ∀ i, (∀ n, n₀ ≤ n → n < 5 * (firstSuperframe n₀ + i) + 5 → n ∈ P ++ network.flatten) →
          i < r + m) := by
  induction network generalizing s P j r with
  | nil => exact ⟨0, rfl, by simp⟩
  | cons arriving network ih =>
    rw [List.flatten_cons] at harrive
    obtain ⟨hfirst, hrest⟩ := harrive.append
    rw [List.map_cons, Mealy.state_cons] at hroom
    have hroom₁ : (s.getNextFrame (e.call time beyond bufSize arriving)).2.ordered.overruns = 0 :=
      Nat.le_zero.mp (hroom ▸ overruns_le_state _ _)
    obtain ⟨j', hcall⟩ := h.getNextFrame hpos hlt beyond hfirst hbuf hroom₁
    rw [List.map_cons, Mealy.outputs_cons, List.flatten_cons, ← List.append_assoc]
    rcases hcall with ⟨hout, hcount, hmissing, hrelays⟩ | ⟨hout, hrelays⟩
    · obtain ⟨m, houtputs, hlast⟩ := ih hrelays hrest hroom
      rw [hout]
      refine ⟨m, houtputs, fun hnone i hall => ?_⟩
      cases hnetwork : network with
      | nil =>
        -- All frames that have arrived without a gap are popped, and fewer than five are held.
        subst hnetwork
        obtain rfl : 0 = m := by simpa using congrArg List.length houtputs
        have hgap : ¬ n₀ + j' < 5 * (firstSuperframe n₀ + i) + 5 := fun hlt' =>
          hmissing (by simpa using hall (n₀ + j') (by omega) hlt')
        have hge : n₀ ≤ 5 * firstSuperframe n₀ := by
          unfold firstSuperframe
          omega
        obtain ⟨elapsed, hj⟩ := Nat.exists_eq_add_of_lt
          (show 5 * firstSuperframe n₀ < n₀ + j' by omega)
        obtain ⟨-, hplace, -⟩ := hrelays.collected.aligned elapsed (by omega)
        omega
      | cons arriving' network' =>
        refine hlast ?_ i hall
        rw [hnetwork] at hnone ⊢
        rwa [List.map_cons, Mealy.outputs_cons, List.getLast?_cons_cons] at hnone
    · obtain ⟨m, houtputs, hlast⟩ := ih hrelays hrest hroom
      rw [hout]
      refine ⟨m + 1, ?_, fun hnone i hall => ?_⟩
      · rw [List.reduceOption_cons_of_some, houtputs, List.range_succ_eq_map, List.map_cons,
          List.map_map]
        refine congrArg _ (List.map_congr_left fun i _ => ?_)
        rw [Function.comp, Nat.add_right_comm, Nat.add_assoc]
      · cases hnetwork : network with
        | nil =>
          subst hnetwork
          simp at hnone
        | cons arriving' network' =>
          have hi := hlast (by
            rw [hnetwork] at hnone ⊢
            rwa [List.map_cons, Mealy.outputs_cons, List.getLast?_cons_cons] at hnone) i hall
          omega

theorem relays_start (n₀ : ℕ) {bitrate jitterBufferSize : ℕ}
    (hs : setDabPlusParameters bitrate jitterBufferSize = some s)
    (hjitter : 2 * jitterBufferSize ≤ 5000) (hD : D ≤ jitterBufferSize)
    (e : Encoder (bitrate * 3)) (time : ℕ → ℤ) :
    0 < bitrate ∧ bitrate ≤ 192 ∧ Relays e time n₀ D [] 0 0 s := by
  obtain ⟨frameSize, hsize, rfl⟩ := Option.map_eq_some_iff.mp hs
  simp only [configuredFrameSize] at hsize
  split_ifs at hsize with hbitrate
  obtain rfl := Option.some.inj hsize
  have hbuffer : bitrate / 8 * 8 * 5 * 3 = 5 * (bitrate * 3) := by omega
  have hwindow : Reorder.Window (.empty maxQueueSize jitterBufferSize maxQueueSize_pos) n₀ D
      (e.queueData time) [] 0 := Reorder.window_init jitterBufferSize maxQueueSize_pos
  rw [hbuffer]
  refine ⟨by omega, by omega, rfl, rfl, hD, ?_, hwindow, collected_init⟩
  simp only [capacity_empty, maxQueueSize]
  omega

def countingEncoder : Encoder 24 where
  frame n :=
    { STIFrame.checkedFrame with
      dfctl := ⟨n % 250, Nat.mod_lt n (by decide)⟩
      dfcth := ⟨n % 5000 / 250, by omega⟩
      payload := List.replicate 24 (UInt8.ofNat n)
      crc := none
      stl_lt := by simp }
  rtp _ := none
  number n := by
    dsimp only
    omega
  size _ := List.length_replicate
  whole n := by
    simp [STIFrame.encode, STIFrame.length_header, STIFrame.nst, STIFrame.checkedFrame,
      maxAVTFrameSize]
  crc _ := rfl

end Run

end SourceCompanion.AVTInput
