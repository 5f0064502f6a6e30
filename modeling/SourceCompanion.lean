import SourceCompanion.Run.Mealy
import SourceCompanion.OrderedQueue.Reorder
import SourceCompanion.Edi.PFT
import SourceCompanion.Edi.Fragments
import SourceCompanion.Edi.Erasure
import SourceCompanion.AVTInput.Datagram
import SourceCompanion.AVTInput.Basic
import SourceCompanion.AVTInput.History
import SourceCompanion.AVTInput.Superframe
import SourceCompanion.AVTInput.Timestamp
import SourceCompanion.Edi.TagItems
import SourceCompanion.Edi.AFPacket
import SourceCompanion.Edi.ReadBack
import SourceCompanion.Edi.DSTI
import SourceCompanion.Output.EDI
import SourceCompanion.Output.Timestamp
import SourceCompanion.Output.SendLoop
import SourceCompanion.AVTInput.Assembled
import SourceCompanion.AVTInput.Resync
import SourceCompanion.Edi.Sender
import SourceCompanion.ClockTAI.Bulletin
import SourceCompanion.ClockTAI.Cache
import SourceCompanion.ClockTAI.Offset
import SourceCompanion.ClockTAI.Retry
import SourceCompanion.Output.ClockFree
import SourceCompanion.Socket.ThreadsafeQueue
import SourceCompanion.Socket.SendClient
import SourceCompanion.ClockTAI.Fetch
import SourceCompanion.ClockTAI.Threads
import SourceCompanion.AVTInput.Uri
import SourceCompanion.OrderedQueue.Search
import SourceCompanion.Run.Ends
import SourceCompanion.AVTInput.Endpoint
import SourceCompanion.AVTInput.Returns
import SourceCompanion.ClockTAI.Refines
import SourceCompanion.AVTInput.Refines
import SourceCompanion.Handles.Ledger
import SourceCompanion.Socket.TCPSocket
import SourceCompanion.Socket.Descriptors
import SourceCompanion.Socket.DataDispatcher
import SourceCompanion.OrderedQueue.Spec
import SourceCompanion.AACDecoder.Basic
import SourceCompanion.AVTInput.Encode
import SourceCompanion.AACDecoder.Slices
import SourceCompanion.AACDecoder.Units
import SourceCompanion.AACDecoder.Peaks
import SourceCompanion.Pad.Interface
import SourceCompanion.Pad.Slice
import SourceCompanion.Pad.Fill
import SourceCompanion.ClockTAI.Entries
import SourceCompanion.ClockTAI.Override
import SourceCompanion.Edi.EdiTime
import SourceCompanion.Edi.Stream
import SourceCompanion.Output.Spacing
import SourceCompanion.Pad.Request
import SourceCompanion.Edi.PayloadSize
import SourceCompanion.Output.Uptime
import SourceCompanion.Edi.Divisors
import SourceCompanion.AVTInput.Reconfigure
import SourceCompanion.Crc.Serial
import SourceCompanion.Edi.CrcSerial
import SourceCompanion.Run.Monitor
import SourceCompanion.Socket.QueueThreads
import SourceCompanion.Galois.ShiftRegister
import SourceCompanion.Syndrome.BerlekampMassey
import SourceCompanion.Fec.DecodeRs
import SourceCompanion.Fec.Tables
import SourceCompanion.Fec.Generator
import SourceCompanion.Fec.Encoded
import SourceCompanion.Fec.Received
import SourceCompanion.Fec.Located
import SourceCompanion.Fec.Corrected
import SourceCompanion.Fec.ReedSolomon
import SourceCompanion.Edi.Recovery
import SourceCompanion.Output.Delivery
import SourceCompanion.Fec.Frame
import SourceCompanion.Framing.Basic
import SourceCompanion.Edi.Packets
import SourceCompanion.Socket.SendStream
import SourceCompanion.Log.Logger
import SourceCompanion.AVTInput.Relay
import SourceCompanion.Output.EndToEnd
import SourceCompanion.Output.ZMQ
