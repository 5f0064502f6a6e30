import SourceCompanion.AVTInput.Datagram
import SourceCompanion.OrderedQueue.Basic

/-! # Receiving superframes

Each call reads the datagrams that wait at the socket into the ordered queue and then takes
parts out of the queue until a superframe of five parts is complete. The alignment, the
frames collected so far and the time base persist from call to call.
-/

namespace SourceCompanion

namespace AVTInput

open Bytes

def maxQueueSize : ℤ := 5000

theorem maxQueueSize_pos : 0 < maxQueueSize := by decide

/-- The part of the state that the assembly of superframes works on. Times are in
nanoseconds. -/
structure Assembly where
  frameAligned : Bool := false
  currentFrame : List UInt8 := []
  nbFrames : ℕ := 0
  expectedFrameIndex : ℤ := 0
  frameZeroTimestamp : ℤ := 0
  currentFrameSize : ℕ := 0
  deriving DecidableEq, Repr

namespace Assembly

def append (s : Assembly) (returnedIndex : ℤ) (part : List UInt8) : Assembly :=
  { s with
    currentFrame := memcpy s.currentFrame s.currentFrameSize part
    currentFrameSize := s.currentFrameSize + part.length
    nbFrames := s.nbFrames + 1
    expectedFrameIndex := (returnedIndex + 1).tmod maxQueueSize }

def partDuration : ℤ := 24000000

def takePart (s : Assembly) (returnedIndex : ℤ) (queueData : OrderedQueueData) : Assembly :=
  if ¬ s.frameAligned then
    if returnedIndex.tmod 5 = 0 then
      { s.append returnedIndex queueData.buf with
        frameAligned := true
        frameZeroTimestamp := queueData.captureTimestamp }
    else s
  else if returnedIndex.tmod 5 = s.nbFrames then
    -- An unexpected index is only reported.
    { s.append returnedIndex queueData.buf with
      frameZeroTimestamp := s.frameZeroTimestamp + partDuration }
  else
    { s with
      nbFrames := 0
      currentFrameSize := 0
      frameAligned := false
      expectedFrameIndex := 0 }

/-- The end of `getNextFrame`: a complete superframe that fits into the caller's buffer is
handed out with the time base. -/
def finish (s : Assembly) (bufSize : ℕ) : Option (List UInt8 × ℤ) × Assembly :=
  if s.nbFrames = 5 ∧ s.currentFrameSize ≤ bufSize then
    (some (s.currentFrame.take s.currentFrameSize, s.frameZeroTimestamp),
      { s with currentFrameSize := 0, nbFrames := 0 })
  else (none, s)

end Assembly

def Datagram.payload (d : Datagram) (frame : Datagram.Found) : List UInt8 :=
  (List.range frame.dataSize).map fun i => d.byteAt (frame.offset + i)

end AVTInput

open AVTInput

structure AVTInput where
  dab24msFrameSize : ℕ
  previousRtpIndex : ℤ
  ordered : OrderedQueue OrderedQueueData
  assembly : Assembly

namespace AVTInput

/-- A new input whose parameters have been set, if the bitrate is one for DAB+. -/
def setDabPlusParameters (bitrate jitterBufferSize : ℕ) : Option AVTInput :=
  (configuredFrameSize bitrate).map fun frameSize => {
    dab24msFrameSize := frameSize
    previousRtpIndex := -1
    ordered := .empty maxQueueSize jitterBufferSize maxQueueSize_pos
    assembly := { currentFrame := List.replicate (bitrate / 8 * 8 * 5 * 3) 0 } }

/-- An input whose parameters are set again, if the bitrate is one for DAB+: the assembly keeps all
but its buffer. -/
def reconfigured (s : AVTInput) (bitrate jitterBufferSize : ℕ) : AVTInput :=
  { s with
    dab24msFrameSize := bitrate * 3
    ordered := .empty maxQueueSize jitterBufferSize maxQueueSize_pos
    assembly := { s.assembly with
      currentFrame := List.replicate (bitrate / 8 * 8 * 5 * 3) 0 } }

/-- Read a datagram and store its frame. The answer tells whether there was one. -/
def readFrame (s : AVTInput) (d : Datagram) (ts : ℤ) : Bool × AVTInput :=
  if d.bytes.length > 0 then
    let ((found, previousRtpIndex), _) :=
      Datagram.recorded (d.frameToPush s.dab24msFrameSize s.previousRtpIndex)
    match found with
    | some frame =>
      (true, { s with
        previousRtpIndex
        ordered := s.ordered.push frame.frameNumber ⟨d.payload frame, ts⟩ })
    | none => (true, { s with previousRtpIndex })
  else (false, s)

def readFrames (s : AVTInput) : List (Datagram × ℤ) → AVTInput
  | [] => s
  | (d, ts) :: pending =>
    match s.readFrame d ts with
    | (true, s) => s.readFrames pending
    | (false, s) => s

/-- The assembly loop. Each turn removes a part, so the size of the stock is enough fuel, see
`assembleParts_eq`. -/
def assembleParts : ℕ → AVTInput → AVTInput
  | 0, s => s
  | fuel + 1, s =>
    if s.assembly.nbFrames < 5 then
      match s.ordered.pop with
      | (some (returnedIndex, queueData), ordered) =>
        if queueData.buf = [] then { s with ordered }
        else assembleParts fuel
          { s with ordered, assembly := s.assembly.takePart returnedIndex queueData }
      | (none, ordered) => { s with ordered }
    else s

/-- One call: the datagrams waiting at the socket with their times of reception, and the
size of the buffer for the superframe. -/
structure Call where
  pending : List (Datagram × ℤ)
  bufSize : ℕ

def getNextFrame (s : AVTInput) (call : Call) : Option (List UInt8 × ℤ) × AVTInput :=
  let s := s.readFrames call.pending
  let s := assembleParts s.ordered.size s
  let (superframe, assembly) := s.assembly.finish call.bufSize
  (superframe, { s with assembly })

theorem assembleParts_of_size_eq_zero {s : AVTInput} (h : s.ordered.size = 0) (fuel : ℕ) :
    assembleParts fuel s = s := by
  have hpop : s.ordered.pop = (none, s.ordered) := by
    rcases s.ordered.pop_cases with ⟨hp, -⟩ | ⟨q', k, d, -, hq⟩
    · exact hp
    · have := hq.size
      omega
  cases fuel with
  | zero => rfl
  | succ fuel =>
    rw [assembleParts, hpop]
    split <;> rfl

theorem assembleParts_eq {m n : ℕ} {s : AVTInput} (hm : s.ordered.size ≤ m)
    (hn : s.ordered.size ≤ n) : assembleParts m s = assembleParts n s := by
  induction m generalizing n s with
  | zero => rw [assembleParts_of_size_eq_zero (by omega), assembleParts_of_size_eq_zero (by omega)]
  | succ m ih =>
    cases n with
    | zero =>
      rw [assembleParts_of_size_eq_zero (by omega), assembleParts_of_size_eq_zero (by omega)]
    | succ n =>
      rw [assembleParts, assembleParts]
      rcases s.ordered.pop_cases with ⟨hp, -⟩ | ⟨q', k, d, hp, hq⟩
      · rw [hp]
      · have hsize := hq.size
        have hrest := ih (n := n) (s := { s with
          ordered := q', assembly := s.assembly.takePart k d }) (by dsimp only; omega)
          (by dsimp only; omega)
        rw [hp]
        dsimp only
        rw [hrest]

end AVTInput

end SourceCompanion
