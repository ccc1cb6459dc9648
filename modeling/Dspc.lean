import Dspc.BitList
import Dspc.Hex
import Dspc.Server
import Dspc.CircularBuffer
import Dspc.RegisterIo
import Dspc.RegisterIo.Triple
import Dspc.Buffer
import Dspc.Serial.Receiver
import Dspc.Serial.Timing
import Dspc.Serial.Sender
import Dspc.Serial.Tolerance
import Dspc.SystemUart.Baud
import Dspc.SystemUart.Tx
import Dspc.SystemUart.Rx
import Dspc.SystemUart.Link
import Dspc.SystemUart.Peer
import Dspc.SystemUart.Top
import Dspc.SystemUart.Bus
import Dspc.SystemUart.Accounts
import Dspc.SystemUart.Session
import Dspc.SystemUart.Software
import Dspc.SystemUart.View
import Dspc.SystemUart.EndToEnd
import Dspc.SystemUart.Latency
import Dspc.Rs232Comm
import Dspc.AvalonUart.Driver
import Dspc.AvalonUart.Interrupt
import Dspc.AvalonUart.Machine
import Dspc.AvalonUart.Buffers
import Dspc.AvalonUart.Polling
import Dspc.AvalonUart.Safety
import Dspc.AvalonUart.Control
import Dspc.AvalonUart.Board
import Dspc.AvalonUart.Wakeup
import Dspc.AvalonUart.Wire
import Dspc.AvalonUart.Drain
import Dspc.Sha256.Compression
import Dspc.Sha256.Message
import Dspc.Vhdl.StdLogic
import Dspc.Vhdl.Vector
import Dspc.Vhdl.Slice
import Dspc.Vhdl.Checked
import Dspc.Vhdl.Access
import Dspc.Vhdl.Process
import Dspc.Vhdl.Trace
import Dspc.Vhdl.Simulation
import Dspc.Cpp.Loop
import Dspc.Cpp.LowWord
import Dspc.Cpp.Storage
import Dspc.Cpp.Bitset
import Dspc.Cpp.Ostream
import Dspc.HashComp.HashCompPkg
import Dspc.HashComp.Rtl
import Dspc.HashComp.InFlight
import Dspc.HashComp.FirstTransaction
import Dspc.HashComp.Reuse
import Dspc.HashComp.Reset
import Dspc.HashComp.Requests
import Dspc.HashComp.Carried
import Dspc.BlockDecomp.Bhv
import Dspc.BlockDecomp.Schedule
import Dspc.BlockDecomp.Invariant
import Dspc.BlockDecomp.Announce
import Dspc.BlockDecomp.Requests
import Dspc.BlockDecomp.Indices
import Dspc.PaddingBlock.Bhv
import Dspc.PaddingBlock.Length
import Dspc.PaddingBlock.Ready
import Dspc.CppImp.Sha256C
import Dspc.CppImp.Words
import Dspc.CppImp.Core
import Dspc.CppImp.Width
import Dspc.CppImp.Padding
import Dspc.CppImp.PaddingLength
import Dspc.CppImp.Main
import Dspc.CppImp.LongMessage
import Dspc.CppImp.DigestLine
import Dspc.Agreement
import Dspc.Pipeline
