import SourceCompanion.Output.SendLoop

/-! # The ZMQ output

Every superframe becomes one message: a packed header in the byte order of the host, and the
data right after it. The buffer of the messages is kept from one superframe to the next. The
main loop goes on after a message that the socket does not take, but not for ever.
-/

namespace SourceCompanion.Output

open Bytes

/-! ## The message -/

inductive ByteOrder
  | little
  | big
  deriving DecidableEq

/-- A field in memory, from its bytes in big-endian order, and back. -/
def ByteOrder.store : ByteOrder → List UInt8 → List UInt8
  | .little, bytes => bytes.reverse
  | .big, bytes => bytes

@[simp] theorem ByteOrder.store_store (order : ByteOrder) (bytes : List UInt8) :
    order.store (order.store bytes) = bytes := by
  cases order with
  | little => exact List.reverse_reverse bytes
  | big => rfl

@[simp] theorem ByteOrder.length_store (order : ByteOrder) (bytes : List UInt8) :
    (order.store bytes).length = bytes.length := by
  cases order with
  | little => exact List.length_reverse
  | big => rfl

inductive CodecSelection
  | dabplus
  | mpegLayer2
  deriving DecidableEq

def CodecSelection.encoder : CodecSelection → UInt16
  | .dabplus => 1
  | .mpegLayer2 => 2

structure ZmqFrameHeader where
  version : UInt16
  encoder : UInt16
  datasize : UInt32
  audiolevelLeft : Int16
  audiolevelRight : Int16
  deriving DecidableEq

def zmqHeaderSize : ℕ := 12

namespace ZmqFrameHeader

def bytes (order : ByteOrder) (h : ZmqFrameHeader) : List UInt8 :=
  order.store (be16 h.version) ++ order.store (be16 h.encoder) ++
    order.store (be32 h.datasize) ++ order.store (be16 h.audiolevelLeft.toUInt16) ++
      order.store (be16 h.audiolevelRight.toUInt16)

/-- The header at the front of a message, and the data if it is as long as the header says. -/
def read (order : ByteOrder) (message : List UInt8) : Option (ZmqFrameHeader × List UInt8) :=
  let field (offset size : ℕ) := ofBE (order.store (slice message offset size))
  let header : ZmqFrameHeader := {
    version := .ofNat (field 0 2)
    encoder := .ofNat (field 2 2)
    datasize := .ofNat (field 4 4)
    audiolevelLeft := (UInt16.ofNat (field 8 2)).toInt16
    audiolevelRight := (UInt16.ofNat (field 10 2)).toInt16 }
  if message.length = zmqHeaderSize + header.datasize.toNat then
    some (header, message.drop zmqHeaderSize)
  else none

theorem length_bytes (order : ByteOrder) (h : ZmqFrameHeader) :
    (h.bytes order).length = zmqHeaderSize := by
  simp [bytes, zmqHeaderSize]

theorem read_bytes (order : ByteOrder) (h : ZmqFrameHeader) {data : List UInt8}
    (hsize : h.datasize.toNat = data.length) :
    read order (h.bytes order ++ data) = some (h, data) := by
  have hversion : slice (h.bytes order ++ data) 0 2 = order.store (be16 h.version) := by
    cases order <;> rfl
  have hencoder : slice (h.bytes order ++ data) 2 2 = order.store (be16 h.encoder) := by
    cases order <;> rfl
  have hdatasize : slice (h.bytes order ++ data) 4 4 = order.store (be32 h.datasize) := by
    cases order <;> rfl
  have hleft : slice (h.bytes order ++ data) 8 2 =
      order.store (be16 h.audiolevelLeft.toUInt16) := by
    cases order <;> rfl
  have hright : slice (h.bytes order ++ data) 10 2 =
      order.store (be16 h.audiolevelRight.toUInt16) := by
    cases order <;> rfl
  have hlength : (h.bytes order ++ data).length = zmqHeaderSize + h.datasize.toNat := by
    rw [List.length_append, length_bytes, hsize]
  simp only [read, hversion, hencoder, hdatasize, hleft, hright, ByteOrder.store_store, ofBE_be16,
    ofBE_be32, UInt16.ofNat_toNat, UInt32.ofNat_toNat]
  rw [if_pos hlength, List.drop_left' (length_bytes order h)]
  rfl

end ZmqFrameHeader

structure ZMQ where
  audioLeft : Int16 := 0
  audioRight : Int16 := 0
  encoder : CodecSelection := .dabplus
  framebuf : List UInt8 := []

namespace ZMQ

def updateAudioLevels (s : ZMQ) (audiolevelLeft audiolevelRight : Int16) : ZMQ :=
  { s with audioLeft := audiolevelLeft, audioRight := audiolevelRight }

/-- The answer, and the message that is handed to the socket, which takes it or fails. -/
def writeFrame (order : ByteOrder) (s : ZMQ) (buf : List UInt8) (sent : Bool) :
    (Bool × List UInt8) × ZMQ :=
  let framebuf :=
    if s.framebuf.length ≠ zmqHeaderSize + buf.length then
      resize s.framebuf (zmqHeaderSize + buf.length)
    else s.framebuf
  let datasize : UInt32 := .ofNat buf.length
  let framebuf := memcpy framebuf 2 (order.store (be16 s.encoder.encoder))
  let framebuf := memcpy framebuf 0 (order.store (be16 1))
  let framebuf := memcpy framebuf 4 (order.store (be32 datasize))
  let framebuf := memcpy framebuf 8 (order.store (be16 s.audioLeft.toUInt16))
  let framebuf := memcpy framebuf 10 (order.store (be16 s.audioRight.toUInt16))
  let framebuf := memcpy framebuf zmqHeaderSize buf
  ((sent, framebuf.take (zmqHeaderSize + datasize.toNat)), { s with framebuf })

def header (s : ZMQ) (len : ℕ) : ZmqFrameHeader where
  version := 1
  encoder := s.encoder.encoder
  datasize := .ofNat len
  audiolevelLeft := s.audioLeft
  audiolevelRight := s.audioRight

theorem writeFrame_eq (order : ByteOrder) (s : ZMQ) {buf : List UInt8} (sent : Bool)
    (hlt : buf.length < 2 ^ 32) :
    s.writeFrame order buf sent = ((sent, (s.header buf.length).bytes order ++ buf),
      { s with framebuf := (s.header buf.length).bytes order ++ buf }) := by
  have hresized :
      (if s.framebuf.length ≠ zmqHeaderSize + buf.length then
        resize s.framebuf (zmqHeaderSize + buf.length) else s.framebuf).length =
          zmqHeaderSize + buf.length := by
    split
    · simp [resize]
      omega
    · omega
  rw [writeFrame]
  generalize (if s.framebuf.length ≠ zmqHeaderSize + buf.length then
    resize s.framebuf (zmqHeaderSize + buf.length) else s.framebuf) = framebuf at hresized ⊢
  have hlength : ((s.header buf.length).bytes order ++ buf).length = framebuf.length := by
    rw [List.length_append, ZmqFrameHeader.length_bytes, hresized]
  have hsize : (UInt32.ofNat buf.length).toNat = buf.length := UInt32.toNat_ofNat_of_lt' hlt
  have hle : 2 ≤ framebuf.length := by
    rw [hresized, zmqHeaderSize]
    omega
  have hwrites : memcpy (memcpy (memcpy (memcpy (memcpy (memcpy framebuf
      2 (order.store (be16 s.encoder.encoder))) 0 (order.store (be16 1)))
      4 (order.store (be32 (.ofNat buf.length)))) 8 (order.store (be16 s.audioLeft.toUInt16)))
      10 (order.store (be16 s.audioRight.toUInt16))) zmqHeaderSize buf =
        (s.header buf.length).bytes order ++ buf := by
    rw [memcpy_before (by simp) hle, memcpy_behind (by simp), memcpy_behind (by simp),
      memcpy_behind (by simp), memcpy_behind (by simp [zmqHeaderSize])]
    change memcpy framebuf 0 ((s.header buf.length).bytes order ++ buf) = _
    rw [memcpy, Nat.zero_add, hlength, List.drop_length, List.append_nil, List.take_zero,
      List.nil_append]
  rw [hwrites, hsize, ← hresized, ← hlength, List.take_length]

end ZMQ

/-! ## The run -/

def Turn.message (encoder : UInt16) (t : Turn) : ZmqFrameHeader × List UInt8 :=
  (⟨1, encoder, .ofNat t.outbuf.data.length, t.peakLeft, t.peakRight⟩, t.outbuf.data)

namespace SendLoop

/-- The message of a turn, if there is a ZMQ output and the socket takes it. -/
def publish (c : Config) (order : ByteOrder) (zmq : ZMQ) (t : Turn) : List (List UInt8) × ZMQ :=
  if c.zmqOutput then
    let ((sent, message), zmq) :=
      (zmq.updateAudioLevels t.peakLeft t.peakRight).writeFrame order t.outbuf.data t.zmqSent
    (if sent then [message] else [], zmq)
  else ([], zmq)

def messages (c : Config) (order : ByteOrder) :
    SendLoop → ZMQ → List Turn → List (List UInt8)
  | _, _, [] => []
  | s, zmq, t :: turns =>
    -- `setTist` comes before it, but does not throw.
    let (taken, zmq) := publish c order zmq t
    match turn c s t with
    | ((_, .goOn), s) => taken ++ messages c order s zmq turns
    | _ => taken

variable {c : Config}

theorem publish_read (hzmq : c.zmqOutput = true) (order : ByteOrder) (zmq : ZMQ) (t : Turn) :
    (publish c order zmq t).2.encoder = zmq.encoder ∧
      (publish c order zmq t).1.map (ZmqFrameHeader.read order) =
        ([t].filter (·.zmqSent)).map fun t => some (Turn.message zmq.encoder.encoder t) := by
  have hle := t.outbuf.le
  have hlt : t.outbuf.data.length < 2 ^ 32 := by omega
  rw [publish, if_pos hzmq, ZMQ.writeFrame_eq order _ _ hlt]
  refine ⟨rfl, ?_⟩
  cases hsent : t.zmqSent with
  | false => simp [hsent]
  | true =>
    have hsize : (((zmq.updateAudioLevels t.peakLeft t.peakRight).header
        t.outbuf.data.length).datasize).toNat = t.outbuf.data.length :=
      UInt32.toNat_ofNat_of_lt' hlt
    simp only [if_true, List.map_cons, List.map_nil, ZmqFrameHeader.read_bytes order _ hsize,
      List.filter_cons, hsent, List.filter_nil]
    rfl

/-- A subscriber reads the superframe and the levels of each turn whose message the socket
took, in order, whatever is left in the buffer of the messages. -/
theorem published (hzmq : c.zmqOutput = true) (order : ByteOrder) (s : SendLoop) (zmq : ZMQ)
    (turns : List Turn) :
    (messages c order s zmq turns).map (ZmqFrameHeader.read order) =
      ((turns.take (run c s turns).length).filter (·.zmqSent)).map fun t =>
        some (Turn.message zmq.encoder.encoder t) := by
  induction turns generalizing s zmq with
  | nil => rfl
  | cons t turns ih =>
    obtain ⟨hencoder, hread⟩ := publish_read hzmq order zmq t
    rw [messages, run]
    generalize publish c order zmq t = published at hencoder hread ⊢
    obtain ⟨taken, zmq'⟩ := published
    dsimp only at hencoder hread ⊢
    rcases turn c s t with ⟨⟨packets, _ | retval | e⟩, s'⟩
    · rw [List.map_append, ih s' zmq', hencoder, hread, ← List.map_append, ← List.filter_append]
      rfl
    · exact hread
    · exact hread

theorem published_one_refused :
    let turns := [smallTurn true, smallTurn false, { smallTurn true with peakLeft := -2 }]
    let zmq : ZMQ := { framebuf := List.replicate 20 0xFF }
    let s : SendLoop := { edi := EDI.start [] 0 0 }
    (run bothOutputs s turns).length = 3 ∧
      (messages bothOutputs .little s zmq turns).map (ZmqFrameHeader.read .little) =
        ((turns.take (run bothOutputs s turns).length).filter (·.zmqSent)).map fun t =>
          some (Turn.message 1 t) :=
  ⟨by decide +kernel, published rfl .little _ _ _⟩

/-! ## The end of the loop -/

theorem writeBlocks_success {data : List UInt8} {blocksize : ℕ} {env : ℕ → Env} {is : List ℕ}
    (hserved : ∀ i ∈ is, ∃ taiUtcOffset, (env i).Serves taiUtcOffset) (success : Bool)
    (edi : EDI) : (writeBlocks data blocksize env is success edi).1.1 = .ok success := by
  induction is generalizing edi with
  | nil => rfl
  | cons i is ih =>
    obtain ⟨⟨taiUtcOffset, hserves⟩, his⟩ := List.forall_mem_cons.mp hserved
    obtain ⟨packet, hwrite, -⟩ :=
      EDI.writeFrame_of_serves hserves edi (slice data (i * blocksize) blocksize)
    rw [writeBlocks, hwrite]
    dsimp only
    rw [Bool.and_true]
    cases success with
    | false => rfl
    | true => exact ih his (edi.sent (env i) taiUtcOffset)

/-- A turn counts a message that the socket refuses, and ends the loop at the eleventh. -/
theorem turn_counts (hzmq : c.zmqOutput = true) (s : SendLoop) {t : Turn}
    (hserved : ∀ i ∈ [0, 1, 2, 3, 4], ∃ taiUtcOffset, (t.env i).Serves taiUtcOffset) :
    ∃ packets edi, turn c s t =
      ((packets, if s.sendErrorCount + [t].countP (!·.zmqSent) > 10 then .abort 4 else .goOn),
        { edi, sendErrorCount := s.sendErrorCount + [t].countP (!·.zmqSent) }) := by
  obtain ⟨edi, -, hturn⟩ := turn_eq c s t
  have hdvd : t.outbuf.data.length % 5 = 0 := Nat.mod_eq_zero_of_dvd t.outbuf.dvd
  have hwritten : (writeEdi c t t.zmqSent edi).1.1 = .ok t.zmqSent := by
    rw [writeEdi]
    split
    · dsimp only
      rw [if_neg (by simpa using hdvd)]
      exact writeBlocks_success hserved _ _
    · rfl
  rw [hzmq, Bool.not_true, Bool.false_or] at hturn
  generalize writeEdi c t t.zmqSent edi = written at hturn hwritten
  obtain ⟨⟨result, packets⟩, edi'⟩ := written
  obtain rfl : result = .ok t.zmqSent := hwritten
  refine ⟨packets, edi', ?_⟩
  rw [hturn]
  cases hsent : t.zmqSent with
  | false =>
    have hone : [t].countP (!·.zmqSent) = 1 := by simp [hsent]
    rw [hone]
    dsimp only
    rw [if_neg Bool.false_ne_true]
    split <;> rfl
  | true =>
    have hnone : [t].countP (!·.zmqSent) = 0 := by simp [hsent]
    rw [hnone]
    dsimp only
    rw [if_pos rfl, Nat.add_zero]
    split <;> rfl

theorem lt_length_run_iff (hzmq : c.zmqOutput = true) {turns : List Turn}
    (hserved : ∀ t ∈ turns, ∀ i ∈ [0, 1, 2, 3, 4], ∃ taiUtcOffset, (t.env i).Serves taiUtcOffset)
    {s : SendLoop} (hs : s.sendErrorCount ≤ 10) (k : ℕ) : k < (run c s turns).length ↔
      k < turns.length ∧ s.sendErrorCount + (turns.take k).countP (!·.zmqSent) ≤ 10 := by
  induction turns generalizing s k with
  | nil => simp [run]
  | cons t turns ih =>
    obtain ⟨ht, hturns⟩ := List.forall_mem_cons.mp hserved
    obtain ⟨packets, edi', hturn⟩ := turn_counts hzmq s ht
    rw [run, hturn]
    cases k with
    | zero =>
      refine iff_of_true ?_ ⟨Nat.succ_pos _, hs⟩
      split <;> exact Nat.succ_pos _
    | succ k =>
      have hcount : s.sendErrorCount + ((t :: turns).take (k + 1)).countP (!·.zmqSent) =
          s.sendErrorCount + [t].countP (!·.zmqSent) + (turns.take k).countP (!·.zmqSent) := by
        rw [List.take_succ_cons, ← List.singleton_append, List.countP_append, Nat.add_assoc]
      rw [hcount]
      by_cases habort : s.sendErrorCount + [t].countP (!·.zmqSent) > 10
      · rw [if_pos habort]
        simp only [List.length_cons, List.length_nil]
        omega
      · rw [if_neg habort]
        simp only [List.length_cons, Nat.add_lt_add_iff_right]
        exact ih hturns (s := ⟨edi', s.sendErrorCount + [t].countP (!·.zmqSent)⟩)
          (Nat.le_of_not_lt habort) k

/-- As long as the clock and the transport of EDI work, the loop gets to a turn exactly when the
socket refused at most ten messages before it, in whatever turns. -/
theorem reached_iff (hzmq : c.zmqOutput = true) (edi : EDI) {turns : List Turn}
    (hserved : ∀ t ∈ turns, ∀ i ∈ [0, 1, 2, 3, 4], ∃ taiUtcOffset, (t.env i).Serves taiUtcOffset)
    (k : ℕ) : k < (run c { edi } turns).length ↔
      k < turns.length ∧ (turns.take k).countP (!·.zmqSent) ≤ 10 := by
  have h := lt_length_run_iff hzmq hserved (s := { edi }) (Nat.zero_le 10) k
  rwa [Nat.zero_add] at h

theorem reached_iff_eleven :
    let s : SendLoop := { edi := EDI.start [] 0 0 }
    10 < (run bothOutputs s (List.replicate 12 (smallTurn false))).length ∧
      ¬ 11 < (run bothOutputs s (List.replicate 12 (smallTurn false))).length := by
  have hserved : ∀ t ∈ List.replicate 12 (smallTurn false), ∀ i ∈ [0, 1, 2, 3, 4],
      ∃ taiUtcOffset, (t.env i).Serves taiUtcOffset := fun t ht i _ => by
    rw [List.eq_of_mem_replicate ht]
    exact ⟨37, rfl, rfl⟩
  exact ⟨(reached_iff rfl _ hserved 10).mpr (by decide),
    fun h => absurd ((reached_iff rfl _ hserved 11).mp h) (by decide)⟩

end SendLoop

end SourceCompanion.Output
