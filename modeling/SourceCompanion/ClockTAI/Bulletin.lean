import Mathlib.Data.List.Basic
import SourceCompanion.Bytes.BigEndian

/-! # TAI bulletins

A bulletin is a text with one line for its expiry and one line for each leap second, or an
offset that was set by hand. Its state is what the clock needs of it: the offset that holds now
and the time at which the bulletin expires.
-/

namespace SourceCompanion.ClockTAI

open Bytes

def ntpUnixOffset : ℤ := 2208988800

inductive ParseError where
  | outOfRange
  | runtimeError (what : String)
  deriving DecidableEq, Repr

structure BulletinState where
  valid : Bool := false
  expiresAt : ℤ := 0
  offset : ℤ := 0
  deriving DecidableEq, Repr

namespace BulletinState

def expiresIn (s : BulletinState) (now : ℤ) : ℤ := s.expiresAt - now

def usable (s : BulletinState) (now : ℤ) : Bool := s.valid && 0 < s.expiresIn now

end BulletinState

structure OverrideData where
  offset : ℤ := 0
  expiresAt : ℤ := 0
  deriving DecidableEq, Repr

structure Bulletin where
  source : String := ""
  bulletinOrOverride : List UInt8 ⊕ OverrideData := .inl []
  deriving DecidableEq

/-- The lines of a text. A line feed at the end of the text starts no further line. -/
def getlines : List UInt8 → List (List UInt8)
  | [] => []
  | c :: cs =>
    if c = 0x0A then [] :: getlines cs
    else match getlines cs with
      | [] => [[c]]
      | line :: lines => (c :: line) :: lines

def isDigit (c : UInt8) : Bool := 0x30 ≤ c && c ≤ 0x39

def isSpace (c : UInt8) : Bool := c = 0x20 || (0x09 ≤ c && c ≤ 0x0D)

def matchDigits (s : List UInt8) : Option (List UInt8 × List UInt8) :=
  if s.takeWhile isDigit = [] then none else some (s.takeWhile isDigit, s.dropWhile isDigit)

def matchSpaces (s : List UInt8) : Option (List UInt8) :=
  if s.takeWhile isSpace = [] then none else some (s.dropWhile isSpace)

/-- A match of `([0-9]+)\s+([0-9]+)\s+#.*` at the beginning. The runs of digits and of white
space end where another character is needed, so a shorter run never helps. -/
def matchBulletinEntry (s : List UInt8) : Option (List UInt8 × List UInt8) := do
  let (timestamp, s) ← matchDigits s
  let s ← matchSpaces s
  let (offset, s) ← matchDigits s
  let s ← matchSpaces s
  if s.head? = some 0x23 then some (timestamp, offset) else none

/-- A match of `#@\s+([0-9]+)` at the beginning. -/
def matchExpiration : List UInt8 → Option (List UInt8)
  | 0x23 :: 0x40 :: s => do
    let s ← matchSpaces s
    let (expiry, _) ← matchDigits s
    some expiry
  | _ => none

def regexSearch {α : Type} (matchAt : List UInt8 → Option α) (line : List UInt8) : Option α :=
  line.tails.findSome? matchAt

def decimal (digits : List UInt8) : ℕ :=
  digits.foldl (fun n d => n * 10 + (d.toNat - 0x30)) 0

def stoll (digits : List UInt8) : Except ParseError ℤ :=
  if decimal digits < 2 ^ 63 then .ok (decimal digits) else .error .outOfRange

def stoi (digits : List UInt8) : Except ParseError ℤ :=
  if decimal digits < 2 ^ 31 then .ok (decimal digits) else .error .outOfRange

/-- What a line does to the offset found so far. An entry in the future is ignored. -/
def parseLine (now : ℤ) (taiUtcOffset : Option ℤ) (line : List UInt8) :
    Except ParseError (Option ℤ) :=
  match regexSearch matchBulletinEntry line with
  | none => .ok taiUtcOffset
  | some (ntpTimestamp, bulletinOffset) => do
    let timestamp ← stoll ntpTimestamp
    let offset ← stoi bulletinOffset
    if timestamp - ntpUnixOffset < now then .ok (some offset) else .ok taiUtcOffset

def parseIetfBulletin (now : ℤ) (bulletin : List UInt8) : Except ParseError ℤ := do
  match ← (getlines bulletin).foldlM (parseLine now) none with
  | none => .error (.runtimeError "No data in TAI bulletin")
  | some taiUtcOffset =>
    if taiUtcOffset < 0 ∨ taiUtcOffset > 500 then
      .error (.runtimeError "Unreasonable TAI-UTC offset calculated")
    else .ok taiUtcOffset

namespace Bulletin

/-- The state of a text. Only the first line with an expiry counts, and a text whose offset
cannot be read keeps its expiry. -/
def textState (now : ℤ) (bulletin : List UInt8) : BulletinState :=
  match (getlines bulletin).findSome? (regexSearch matchExpiration) with
  | none => {}
  | some expiry =>
    match stoll expiry with
    | .error _ => {}
    | .ok expiry =>
      let expiresAt := expiry - ntpUnixOffset
      match parseIetfBulletin now bulletin with
      | .error _ => { expiresAt }
      | .ok offset => { valid := true, expiresAt, offset }

def state (b : Bulletin) (now : ℤ) : BulletinState :=
  match b.bulletinOrOverride with
  | .inr od => { valid := true, expiresAt := od.expiresAt, offset := od.offset }
  | .inl bulletin => textState now bulletin

end Bulletin

def sampleBulletin : List UInt8 :=
  ascii "#@\t3707596800\n3644697600\t36\t# 1 Jul 2015\n3692217600\t37\t# 1 Jan 2017\n".toList

example : Bulletin.textState 1483228000 sampleBulletin =
    { valid := true, expiresAt := 1498608000, offset := 36 } := by decide +kernel

end SourceCompanion.ClockTAI
