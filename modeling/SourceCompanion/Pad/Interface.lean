import SourceCompanion.AVTInput.Endpoint
import SourceCompanion.Run.Recorded

/-! # Requests to the PAD encoder

Each turn of the fill loop sends a request and takes a reply from the socket, if there is one. The
reply carries its length in the byte behind the PAD field, and the frame is cut out in front of it.
-/

namespace SourceCompanion

inductive Pad.Errno where
  | again
  | connRefused
  | noEnt
  | other (text : String)
deriving DecidableEq

/-- The answers of the operating system at the PAD socket, by how many calls there were before, and
what lies in memory around a reply. -/
structure Pad.Os where
  sendto : ℕ → List UInt8 → Except Pad.Errno ℕ
  recvfrom : ℕ → Except Pad.Errno (List UInt8)
  memory : ℕ → ℤ → UInt8

inductive Pad.Stop where
  | outOfFuel
  | logicError (what : String)
  | runtimeError (what : String)
deriving DecidableEq

/-- The interface with its identifier. The calls to the socket are counted. -/
structure PadInterface where
  padIdent : List Char
  padencReachable : Bool := true
  sends : ℕ := 0
  receives : ℕ := 0

namespace Pad

def Errno.strerror : Errno → String
  | .again => "Resource temporarily unavailable"
  | .connRefused => "Connection refused"
  | .noEnt => "No such file or directory"
  | .other text => text

def messageRequest : UInt8 := 1

def messagePadData : UInt8 := 2

end Pad

open Pad Recorded

namespace PadInterface

/-- A request was sent, or not. Only the messages about it depend on this. -/
def noteSent (p : PadInterface) : Except Errno ℕ → PadInterface
  | .error errno =>
    if errno ∈ [.again, .connRefused, .noEnt] then
      { p with sends := p.sends + 1, padencReachable := false }
    else { p with sends := p.sends + 1 }
  | .ok ret =>
    if ret ≠ 2 then { p with sends := p.sends + 1 }
    else { p with sends := p.sends + 1, padencReachable := true }

/-- Receive until there is PAD data or nothing more. The buffer keeps the size of what was received
into it last. -/
def receive (os : Os) : ℕ → PadInterface → ℕ → Except Stop (List UInt8 × PadInterface)
  | 0, _, _ => .error .outOfFuel
  | fuel + 1, p, bufferSize =>
    let p' := { p with receives := p.receives + 1 }
    match os.recvfrom p.receives with
    | .error errno =>
      if errno ≠ .again then .error (.runtimeError ("Can't receive data: " ++ errno.strerror))
      else .ok ([], p')
    | .ok datagram =>
      match datagram.take bufferSize with
      | [] => receive os fuel p' bufferSize
      | type :: padData =>
        if type = messagePadData then .ok (padData, p')
        else receive os fuel p' (padData.length + 1)

/-- Send a request, so that the encoder knows the length and the timing, and take a reply. -/
def request (os : Os) (fuel : ℕ) (p : PadInterface) (padlen : UInt8) :
    Except Stop (List UInt8 × PadInterface) :=
  if p.padIdent = [] then .error (.logicError "Uninitialised PadInterface::request() called")
  else receive os fuel (p.noteSent (os.sendto p.sends [messageRequest, padlen])) 2048

end PadInterface

namespace AVTInput

def maxPadFrameQueueSize : ℕ := 6

def Endpoint.padQueueFull (s : Endpoint) : Bool := s.padFrameQueue.length ≥ maxPadFrameQueueSize

end AVTInput

namespace Pad

structure Filler where
  interface : PadInterface
  input : AVTInput.Endpoint

inductive Event where
  | reply (padData : List UInt8)
  | slice (start : ℤ) (size : ℕ)
deriving DecidableEq

abbrev M (α : Type) := Recorded Stop Filler Event α

def calculatedPadlen (padlen : ℕ) (padData : List UInt8) : ℕ := (padData.getD padlen 0).toNat

/-- Where the slice starts. The difference is a `size_t`, and moves a pointer. -/
def sliceStart (padlen calculatedPadlen : ℕ) : ℤ :=
  (((padlen : ℤ) - calculatedPadlen) % 2 ^ 64).bmod (2 ^ 64)

def byteAt (padData : List UInt8) (around : ℤ → UInt8) (i : ℤ) : UInt8 :=
  if 0 ≤ i ∧ i < padData.length then padData.getD i.toNat 0 else around i

def bytesFrom (padData : List UInt8) (around : ℤ → UInt8) (start : ℤ) (size : ℕ) : List UInt8 :=
  (List.range size).map fun i : ℕ => byteAt padData around (start + i)

def request (os : Os) (fuel padlen : ℕ) : M (List UInt8) := do
  let s ← get
  match s.interface.request os fuel (.ofNat padlen) with
  | .error e => stop e
  | .ok (padData, interface) =>
    set { s with interface }
    if padData ≠ [] then emit (.reply padData)
    return padData

def pushReply (os : Os) (padlen : ℕ) (padData : List UInt8) : M Unit := do
  let size := calculatedPadlen padlen padData
  let start := sliceStart padlen size
  emit (.slice start size)
  let s ← get
  let frame := bytesFrom padData (os.memory s.interface.receives) start size
  set { s with input := s.input.pushPADFrame frame }

/-- Fill the queue, because an encoder requests up to six frames for each superframe. -/
def fill (os : Os) (padlen : ℕ) : ℕ → M Unit
  | 0 => stop .outOfFuel
  | fuel + 1 => do
    let s ← get
    if s.input.padQueueFull then return
    let padData ← request os fuel padlen
    if padData = [] then return
    else if padData.length = padlen + 1 then
      pushReply os padlen padData
      fill os padlen fuel
    else return

def pass (os : Os) (padlen fuel : ℕ) : M Unit :=
  if padlen ≠ 0 then fill os padlen fuel else pure ()

end Pad

end SourceCompanion
