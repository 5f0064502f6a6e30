import Mathlib.Algebra.Order.Ring.Int
import SourceCompanion.AVTInput.Basic
import SourceCompanion.AVTInput.Uri
import SourceCompanion.OrderedQueue.Search

/-! # The input and its sockets

One socket receives the frames, another one the requests of the encoder for PAD. The loops over
them have no bound in the source, so here they run with fuel. An operation that does not return
says why: it is out of fuel, it waits at a socket, or an exception leaves it. Whether a receive
with nothing there fails or waits depends on the mode of the socket.
-/

/-! ## UDP sockets -/

namespace SourceCompanion.Socket

/-- A socket. Sockets are created blocking, and one without a port is not bound. -/
structure UDPSocket (δ : Type*) where
  port : ℤ := 0
  blocking : Bool := true
  pending : List δ := []
deriving DecidableEq

namespace UDPSocket

variable {δ : Type*}

/-- A new socket in place of the old one, unless it cannot be bound. -/
def reinit (bind : ℤ → Option String) (port : ℤ) : Except String (UDPSocket δ) :=
  if port = 0 then .ok { port }
  else
    match bind port with
    | none => .ok { port }
    | some what => .error what

def setBlocking (s : UDPSocket δ) (block : Bool) : UDPSocket δ := { s with blocking := block }

inductive Received (δ : Type*) where
  | waits
  | again
  | packet (datagram : δ) (rest : UDPSocket δ)

def receive (s : UDPSocket δ) : Received δ :=
  match s.pending with
  | [] => if s.blocking then .waits else .again
  | datagram :: pending => .packet datagram { s with pending }

end UDPSocket

end SourceCompanion.Socket

/-! ## The input -/

namespace SourceCompanion

open AVTInput Socket

/-- The answers of the operating system to what can fail, with the text of the error. The answer
to a send may depend on how many there were before it. -/
structure AVTInput.Os where
  bind : ℤ → Option String
  joinGroup : List Char → Option String
  setBlocking : Option String
  resolveUdpDestination : List Char → ℤ → Option String
  sendto : ℕ → List UInt8 → Option String

inductive AVTInput.Stop where
  | outOfFuel
  | blocked
  | runtimeError (what : String)
  deriving DecidableEq

/-- An input with its configuration, its sockets and the parameters of the encoder. A datagram at
the input comes with the time of its reception. What was sent is kept. -/
structure AVTInput.Endpoint where
  inputUri : List Char
  outputUri : List Char
  padPort : UInt32
  jitterBufferSize : ℕ
  inputSocket : UDPSocket (Datagram × ℤ) := {}
  inputPadSocket : UDPSocket (List UInt8) := {}
  padFrameQueue : List (List UInt8) := []
  subChannelIndex : ℤ := 8
  audioMode : ℕ := 0
  monoMode : ℕ := 0
  dac : ℕ := 1
  input : AVTInput
  sent : List (List UInt8) := []

namespace AVTInput

def orThrow : Option String → Except Stop Unit
  | none => .ok ()
  | some what => .error (.runtimeError what)

def openSocketSrv {δ : Type} (os : Os) (socket : UDPSocket δ) (uri : List Char) :
    Except Stop (ℤ × UDPSocket δ) :=
  match parseURI uri with
  | none => .ok (-1, socket)
  | some (address, port) => do
    let socket ← (UDPSocket.reinit os.bind port).mapError .runtimeError
    if address ≠ [] then orThrow (os.joinGroup address)
    orThrow os.setBlocking
    return (0, socket.setBlocking false)

def audioModeOf (channels : ℤ) (sbr ps : Bool) : ℕ :=
  if channels = 1 then if sbr then 1 else 0
  else if ps then 4 else if sbr then 3 else 2

namespace Endpoint

def new (inputUri outputUri : List Char) (padPort : UInt32) (jitterBufferSize : ℕ) : Endpoint where
  inputUri := inputUri
  outputUri := outputUri
  padPort := padPort
  jitterBufferSize := jitterBufferSize
  input :=
    { dab24msFrameSize := 64 * 3
      previousRtpIndex := -1
      ordered := .empty maxQueueSize jitterBufferSize maxQueueSize_pos
      assembly := {} }

/-- Receive at the PAD socket. An empty buffer also stands for nothing received. -/
def receivePad (s : Endpoint) : Except Stop (List UInt8 × Endpoint) :=
  match s.inputPadSocket.receive with
  | .waits => .error .blocked
  | .again => .ok ([], s)
  | .packet datagram inputPadSocket => .ok (datagram.take 2048, { s with inputPadSocket })

def purgeMessages : ℕ → Endpoint → Except Stop Endpoint
  | 0, _ => .error .outOfFuel
  | fuel + 1, s => do
    let (buffer, s) ← s.receivePad
    if buffer = [] then return s else purgeMessages fuel s

def openSocketCli (os : Os) (s : Endpoint) : Except Stop ℤ :=
  match parseURI s.outputUri with
  | none => .ok (-1)
  | some (address, port) => do
    orThrow (os.resolveUdpDestination address port)
    return 0

/-- Open the PAD socket, if the other sockets could be opened and there is a PAD port. The port is
written as a signed number. -/
def preparePad (os : Os) (fuel : ℕ) (s : Endpoint) (ret : ℤ) : Except Stop (ℤ × Endpoint) :=
  if ret = 0 ∧ s.padPort > 0 then do
    let uri := "udp://:".toList ++ (toString s.padPort.toBitVec.toInt).toList
    let (ret, inputPadSocket) ← openSocketSrv os s.inputPadSocket uri
    let s ← purgeMessages fuel { s with inputPadSocket }
    return (ret, s)
  else .ok (ret, s)

def prepare (os : Os) (fuel : ℕ) (s : Endpoint) : Except Stop (ℤ × Endpoint) := do
  let (ret, inputSocket) ← openSocketSrv os s.inputSocket s.inputUri
  let s := { s with inputSocket }
  if ret = 0 ∧ s.outputUri ≠ [] then
    let ret ← s.openSocketCli os
    s.preparePad os fuel ret
  else s.preparePad os fuel ret

def send (os : Os) (s : Endpoint) (packet : List UInt8) : Except Stop Endpoint := do
  orThrow (os.sendto s.sent.length packet)
  return { s with sent := s.sent ++ [packet] }

def sendCtrlMessage (os : Os) (s : Endpoint) : Except Stop Endpoint :=
  if s.outputUri ≠ [] then
    s.send os [0xFD, 0x07, UInt8.ofInt s.subChannelIndex, .ofNat s.audioMode, .ofNat s.dac,
      .ofNat s.monoMode]
  else .ok s

/-- Set the parameters of the encoder. The sizes are set before they are checked. -/
def setDabPlusParameters (os : Os) (s : Endpoint) (bitrate channels sampleRate : ℤ)
    (sbr ps : Bool) : Except Stop (ℤ × Endpoint) :=
  let subChannelIndex := bitrate.tdiv 8
  let s := { s with
    subChannelIndex
    input := { s.input with dab24msFrameSize := (bitrate * 3 % 2 ^ 64).toNat } }
  if subChannelIndex * 8 ≠ bitrate ∨ subChannelIndex < 1 ∨ subChannelIndex > 24 then .ok (1, s)
  else if sampleRate ≠ 48000 ∧ sampleRate ≠ 32000 then .ok (1, s)
  else
    let s := { s with dac := if sampleRate = 48000 then 1 else 0 }
    if channels ≠ 1 ∧ channels ≠ 2 then .ok (1, s)
    else do
      let s := { s with
        audioMode := audioModeOf channels sbr ps
        input := { s.input with
          ordered := .empty maxQueueSize s.jitterBufferSize maxQueueSize_pos
          assembly := { s.input.assembly with
            currentFrame := List.replicate (subChannelIndex * 8 * 5 * 3).toNat 0 } } }
      let s ← s.sendCtrlMessage os
      return (0, s)

def sendPADFrame (os : Os) (s : Endpoint) : Except Stop Endpoint :=
  match s.padFrameQueue with
  | [] => .ok s
  | frame :: padFrameQueue =>
    { s with padFrameQueue }.send os
      ([0xFD, 0x18, UInt8.ofNat (frame.length + 2), 0xAD, UInt8.ofNat frame.length] ++ frame)

def interpretMessage (os : Os) (s : Endpoint) : List UInt8 → Except Stop Endpoint
  | 0xFD :: 0x17 :: _ => s.sendPADFrame os
  | _ => .ok s

def checkMessage (os : Os) (s : Endpoint) : Except Stop (Bool × Endpoint) := do
  let (buffer, s) ← s.receivePad
  if buffer = [] then return (false, s)
  else
    let s ← s.interpretMessage os buffer
    return (true, s)

def readFrame (s : Endpoint) : Except Stop (Bool × Endpoint) :=
  match s.inputSocket.receive with
  | .waits => .error .blocked
  | .again => .ok (false, s)
  | .packet (datagram, ts) inputSocket =>
    let (read, input) := s.input.readFrame datagram ts
    .ok (read, { s with inputSocket, input })

/-- Read all messages from the encoder first, and then the frames. -/
def drain (os : Os) : ℕ → Endpoint → Except Stop Endpoint
  | 0, _ => .error .outOfFuel
  | fuel + 1, s => do
    let (message, s) ← s.checkMessage os
    if message then drain os fuel s
    else
      let (frame, s) ← s.readFrame
      if frame then drain os fuel s else return s

def drainMessages (os : Os) : ℕ → Endpoint → Except Stop Endpoint
  | 0, _ => .error .outOfFuel
  | fuel + 1, s => do
    let (message, s) ← s.checkMessage os
    if message then drainMessages os fuel s else return s

/-- The assembly loop, which reads the messages again after each part. -/
def assemble (os : Os) : ℕ → Endpoint → Except Stop Endpoint
  | 0, _ => .error .outOfFuel
  | fuel + 1, s =>
    if s.input.assembly.nbFrames < 5 then
      match s.input.ordered.popLoop fuel with
      | none => .error .outOfFuel
      | some (none, ordered) => .ok { s with input := { s.input with ordered } }
      | some (some (returnedIndex, queueData), ordered) =>
        if queueData.buf = [] then .ok { s with input := { s.input with ordered } }
        else do
          let s ← drainMessages os fuel { s with input := { s.input with ordered } }
          assemble os fuel { s with input := { s.input with
            assembly := s.input.assembly.takePart returnedIndex queueData } }
    else .ok s

def getNextFrame (os : Os) (fuel : ℕ) (s : Endpoint) (bufSize : ℕ) :
    Except Stop (Option (List UInt8 × ℤ) × Endpoint) := do
  let s ← drain os fuel s
  let s ← assemble os fuel s
  let (superframe, assembly) := s.input.assembly.finish bufSize
  return (superframe, { s with input := { s.input with assembly } })

/-- Store a PAD frame in reversed order, unless there is no PAD port. -/
def pushPADFrame (s : Endpoint) (buf : List UInt8) : Endpoint :=
  if s.padPort = 0 then s
  else if buf.length > 0 then { s with padFrameQueue := s.padFrameQueue ++ [buf.reverse] }
  else s

end Endpoint

end AVTInput

end SourceCompanion
