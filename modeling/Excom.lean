import Excom.Lib.Exec
import Excom.Memory
import Excom.ModeAgreement
import Excom.Buffer
import Excom.BufferFifo
import Excom.BufferLemmas
import Excom.Pack
import Excom.Packet
import Excom.Encryption
import Excom.FlushRace
import Excom.Frame
import Excom.Protocol
import Excom.ReadPacket
import Excom.Acceptance
import Excom.WritePacket
import Excom.RoundTrip
import Excom.Fragmentation
import Excom.Lib.Chain
import Excom.Lib.DList
import Excom.Lib.Loop
import Excom.Lib.Slots
import Excom.PollRegistry
import Excom.Lib.Transition
import Excom.Server
import Excom.Client
import Excom.Authenticity
import Excom.Framing
import Excom.Receive
import Excom.Cursor
import Excom.Seal
import Excom.FrameContents
import Excom.SealedStream
import Excom.Handlers
import Excom.ClientList
import Excom.Lib.Ledger
import Excom.Lifecycle
import Excom.LostWakeup
import Excom.PacketQueue
import Excom.UseAfterClose
import Excom.Worker
import Excom.WriteEvents
import Excom.KeyAgreement
import Excom.Keys
import Excom.Handshake
import Excom.HandshakeOrder
import Excom.Rejection
import Excom.Session
import Excom.Pending
import Excom.Quiescence
import Excom.Factory
import Excom.IdleWorkers
import Excom.Format
import Excom.Unmutable
import Excom.AppendFailure
import Excom.Drain
import Excom.ReadEnds
import Excom.Announce
import Excom.Lib.Tries
import Excom.Room
import Excom.AllOrNothing
import Excom.OneShot
import Excom.DecryptFailure
import Excom.LockDiscipline
import Excom.Resize
import Excom.Lib.Doubling
import Excom.Growing
import Excom.PackBounds
import Excom.StringDup
import Excom.FormatScan
import Excom.JobList
import Excom.AcceptFailure
import Excom.SelectRegistry
import Excom.SelectLoop
import Excom.PollLoop
import Excom.Completion
import Excom.Lib.PrefixCode
import Excom.WireFormat
import Excom.Channel
import Excom.Delivery
import Excom.EndToEnd
import Excom.Service
import Excom.Epoll
import Excom.Backends
import Excom.Kqueue
import Excom.ServerLoop
import Excom.ClientShutdown
import Excom.Threads
