import Mathlib.Algebra.Order.Ring.Int
import SourceCompanion.Bytes.BigEndian
import SourceCompanion.Run.Recorded

/-! # Decoding a superframe

The header of a superframe says where its access units start. They are cut out and given to the
decoder library one after the other, and the samples that come back are followed for their peaks.
The accesses to the header and to the array of the starts are recorded.
-/

namespace SourceCompanion

/-- What is used of the decoder library: the calls give an error code, which is zero if they
succeeded, and change what is behind the handle. -/
structure Fdk (H : Type) where
  /-- Configure with the bytes of an AudioSpecificConfig. -/
  configRaw : H → List UInt8 → ℤ × H
  /-- Fill in so many bytes of a memory from a position on. The second part of the answer is how
  many of them were left. -/
  fill : H → (ℕ → UInt8) → ℤ → ℕ → ℤ × ℕ × H
  /-- Decode into a buffer of so many bytes. -/
  decodeFrame : H → ℕ → ℤ × List UInt8 × H

structure AACDecoder.Peak where
  peakLeft : ℤ := 0
  peakRight : ℤ := 0
deriving DecidableEq

structure AACDecoder (H : Type) where
  decoderSetUp : Bool := false
  channels : ℕ := 0
  peak : AACDecoder.Peak := {}
  handle : H
  outputFrame : List UInt8 := []

namespace AACDecoder

/-- An access to a byte of the superframe or to the array of the starts, an access unit that is
handed to the decoder library, or a buffer that it decoded into. -/
inductive Event where
  | data (i : ℕ)
  | auStart (i : ℕ)
  | handed (start : ℤ) (len : ℕ)
  | decoded (outputFrame : List UInt8)
deriving DecidableEq

variable {H : Type}

/-- A part of `decode_frame`. It stops with the text of a `runtime_error`. -/
abbrev M (H α : Type) := Recorded String (AACDecoder H) Event α

open Recorded

def readData (data : ℕ → UInt8) (i : ℕ) : M H UInt8 := do
  emit (.data i)
  return data i

/-- Write an element of the array of the starts. What is behind the array keeps what is written
there. -/
def store (auStart : ℕ → ℤ) (i : ℕ) (value : ℤ) : M H (ℕ → ℤ) := do
  emit (.auStart i)
  return Function.update auStart i value

def load (auStart : ℕ → ℤ) (i : ℕ) : M H ℤ := do
  emit (.auStart i)
  return auStart i

def auStartSize : ℕ := 6

/-- A size stored as an `int`. -/
def toInt32 (n : ℕ) : ℤ := (n : ℤ).bmod (2 ^ 32)

structure Layout where
  dacRate : Bool
  sbrFlag : Bool
  aacChannelMode : Bool
  psFlag : Bool
  auStart : ℕ → ℤ

namespace Layout

def numAus (dacRate sbrFlag : Bool) : ℕ :=
  if dacRate then if sbrFlag then 3 else 6 else if sbrFlag then 2 else 4

def firstStart (dacRate sbrFlag : Bool) : ℕ :=
  if dacRate then if sbrFlag then 6 else 11 else if sbrFlag then 5 else 8

def aus (layout : Layout) : ℕ := numAus layout.dacRate layout.sbrFlag

end Layout

/-- Twelve bits from the start of the first byte, or from the middle of it. -/
def high12 (first second : UInt8) : ℤ := (first.toNat <<< 4 ||| second.toNat >>> 4 : ℕ)

def low12 (first second : UInt8) : ℤ := ((first &&& 0x0F).toNat <<< 8 ||| second.toNat : ℕ)

def readStart (data : ℕ → UInt8) (i : ℕ) (bits : UInt8 → UInt8 → ℤ) (first : ℕ)
    (auStart : ℕ → ℤ) : M H (ℕ → ℤ) := do
  store auStart i (bits (← readData data first) (← readData data (first + 1)))

def onlyIf (condition : Bool) (f : (ℕ → ℤ) → M H (ℕ → ℤ)) (auStart : ℕ → ℤ) : M H (ℕ → ℤ) :=
  if condition then f auStart else pure auStart

def readStarts (dacRate sbrFlag : Bool) (data : ℕ → UInt8) (len : ℕ) : M H (ℕ → ℤ) := do
  let numAus := Layout.numAus dacRate sbrFlag
  let auStart ← store (fun _ => 0) 0 (Layout.firstStart dacRate sbrFlag)
  let auStart ← readStart data 1 high12 3 auStart
  let auStart ← onlyIf (numAus ≥ 3) (readStart data 2 low12 4) auStart
  let auStart ← onlyIf (numAus ≥ 4) (readStart data 3 high12 6) auStart
  let auStart ← onlyIf (numAus = 6) (readStart data 4 low12 7) auStart
  let auStart ← onlyIf (numAus = 6) (readStart data 5 high12 9) auStart
  store auStart numAus (toInt32 len)

def readLayout (data : ℕ → UInt8) (len : ℕ) : M H Layout := do
  let dacRate : Bool := (← readData data 2) &&& 0x40 ≠ 0
  let sbrFlag : Bool := (← readData data 2) &&& 0x20 ≠ 0
  let aacChannelMode : Bool := (← readData data 2) &&& 0x10 ≠ 0
  let psFlag : Bool := (← readData data 2) &&& 0x08 ≠ 0
  let auStart ← readStarts dacRate sbrFlag data len
  return { dacRate, sbrFlag, aacChannelMode, psFlag, auStart }

def checkOrder (auStart : ℕ → ℤ) (i : ℕ) : M H Unit := do
  if (← load auStart i) ≥ (← load auStart (i + 1)) then stop "  AU ordering check failed\n"

def audioSpecificConfig (layout : Layout) : List UInt8 :=
  let coreSrIndex : UInt8 :=
    if layout.dacRate then if layout.sbrFlag then 6 else 3 else if layout.sbrFlag then 8 else 5
  let coreChConfig : UInt8 := if layout.aacChannelMode then 2 else 1
  let extensionSrIndex : UInt8 := if layout.dacRate then 3 else 5
  let asc : List UInt8 :=
    [(0b00010 : UInt8) <<< 3 ||| coreSrIndex >>> 1,
      (coreSrIndex &&& 0x01) <<< 7 ||| coreChConfig <<< 3 ||| 0b100]
  if layout.sbrFlag then
    let sbr := (0x80 : UInt8) ||| extensionSrIndex <<< 3
    if layout.psFlag then asc ++ [0x56, 0xE5, sbr ||| 0x05, 0x48, 0x80]
    else asc ++ [0x56, 0xE5, sbr]
  else asc

def setUp (fdk : Fdk H) (layout : Layout) : M H Unit := do
  let s ← get
  if s.decoderSetUp then return
  let (initResult, handle) := fdk.configRaw s.handle (audioSpecificConfig layout)
  if initResult ≠ 0 then
    set { s with handle }
    stop ("AACDecoderFDKAAC: error while aacDecoder_ConfigRaw: " ++ toString initResult)
  let channels := if layout.aacChannelMode || layout.psFlag then 2 else 1
  let outputFrameLen := 960 * 2 * channels * (if layout.sbrFlag then 2 else 1)
  set { s with
    handle, channels, decoderSetUp := true
    outputFrame := Bytes.resize s.outputFrame outputFrameLen }

def sample (low high : UInt8) : ℤ := ((low.toNat ||| high.toNat <<< 8 : ℕ) : ℤ).bmod (2 ^ 16)

def Peak.raise (peak : Peak) (l r : ℤ) : Peak :=
  { peakLeft := max peak.peakLeft l, peakRight := max peak.peakRight r }

def Peak.follow (peak : Peak) : List UInt8 → Peak
  | b₀ :: b₁ :: b₂ :: b₃ :: rest => (peak.raise (sample b₀ b₁) (sample b₂ b₃)).follow rest
  | _ => peak

/-- Decode an access unit. The library takes its size as an `unsigned int`, and fills the whole
buffer with samples when it decodes. -/
def decodeAu (fdk : Fdk H) (data : ℕ → UInt8) (start : ℤ) (len : ℕ) : M H Unit := do
  emit (.handed start len)
  let s ← get
  let (result, bytesValid, handle) := fdk.fill s.handle data start (len % 2 ^ 32)
  set { s with handle }
  if result ≠ 0 then
    stop ("AACDecoderFDKAAC: error while aacDecoder_Fill: " ++ toString result)
  if bytesValid ≠ 0 then stop "AACDecoderFDKAAC: aacDecoder_Fill did not consume all bytes"
  let (result, output, handle) := fdk.decodeFrame handle s.outputFrame.length
  let outputFrame := Bytes.resize output s.outputFrame.length
  set { s with handle, outputFrame }
  if result ≠ 0 then
    stop ("AACDecoderFDKAAC: error while aacDecoder_DecodeFrame: " ++ toString result)
  emit (.decoded outputFrame)
  set { s with handle, outputFrame, peak := s.peak.follow outputFrame }

/-- The size of an access unit without its CRC, which is a `size_t`. -/
def auLen (start next : ℤ) : ℕ := ((next - start - 2) % 2 ^ 64).toNat

def slice (fdk : Fdk H) (data : ℕ → UInt8) (auStart : ℕ → ℤ) (i : ℕ) : M H Unit := do
  let auData ← load auStart i
  let next ← load auStart (i + 1)
  let start ← load auStart i
  decodeAu fdk data auData (auLen start next)

def decodeUnits (fdk : Fdk H) (data : ℕ → UInt8) (layout : Layout) : M H Unit := do
  forEach (checkOrder layout.auStart) (List.range layout.aus)
  setUp fdk layout
  forEach (slice fdk data layout.auStart) (List.range layout.aus)

def decodeFrame (fdk : Fdk H) (data : ℕ → UInt8) (len : ℕ) : M H Unit := do
  decodeUnits fdk data (← readLayout data len)

/-- The peaks, which start from zero again. -/
def getPeaks (s : AACDecoder H) : Peak × AACDecoder H := (s.peak, { s with peak := {} })

end AACDecoder

end SourceCompanion
