import TecnicoFs.Lib.Transition
import TecnicoFs.Lib.Linearizability
import TecnicoFs.Lib.Code
import TecnicoFs.Lib.Critical
import TecnicoFs.Lib.Guarded
import TecnicoFs.Lib.LockOrder
import TecnicoFs.Lib.Simulation
import TecnicoFs.Lib.Bytes
import TecnicoFs.Lib.Memory
import TecnicoFs.Lib.Ownership
import TecnicoFs.Lib.Interleave
import TecnicoFs.Lib.Pipe
import TecnicoFs.Lib.Fifo
import TecnicoFs.Lib.Reads
import TecnicoFs.Lib.Ring
import TecnicoFs.Lib.Scan
import TecnicoFs.Lib.Locks
import TecnicoFs.Lib.Appending
import TecnicoFs.Lib.Accounts
import TecnicoFs.Storage.Disk
import TecnicoFs.Storage.Directory
import TecnicoFs.Storage.Statements
import TecnicoFs.Server.State
import TecnicoFs.Server.Operations
import TecnicoFs.Server.Invariant
import TecnicoFs.Server.Ownership
import TecnicoFs.Server.Handles
import TecnicoFs.Server.Spec
import TecnicoFs.Server.Refinement
import TecnicoFs.Server.Effects
import TecnicoFs.Server.Provenance
import TecnicoFs.Server.PathLaw
import TecnicoFs.Server.OpenFiles
import TecnicoFs.Server.Shutdown
import TecnicoFs.Server.Counter
import TecnicoFs.Server.FailedOpen
import TecnicoFs.Server.Bounds
import TecnicoFs.Server.Statements
import TecnicoFs.Server.Concurrent
import TecnicoFs.Tfs.State
import TecnicoFs.Tfs.Operations
import TecnicoFs.Tfs.Invariant
import TecnicoFs.Tfs.WriteLoop
import TecnicoFs.Tfs.Transfers
import TecnicoFs.Tfs.Creation
import TecnicoFs.Tfs.Ownership
import TecnicoFs.Tfs.Threads
import TecnicoFs.Tfs.NameLaw
import TecnicoFs.Tfs.RoundTrip
import TecnicoFs.Tfs.Append
import TecnicoFs.Tfs.Appenders
import TecnicoFs.Tfs.Locks
import TecnicoFs.Tfs.ReadLaw
import TecnicoFs.Tfs.WriteTurns
import TecnicoFs.Tfs.WriteLaw
import TecnicoFs.Tfs.ShortWrite
import TecnicoFs.Tfs.FailedCreate
import TecnicoFs.Tfs.ReadFromStart
import TecnicoFs.Tfs.CopyOut
import TecnicoFs.Tfs.Range
import TecnicoFs.Tfs.Allocators
import TecnicoFs.Tfs.Tables
import TecnicoFs.Tfs.Exhaustion
import TecnicoFs.Tfs.HandOut
import TecnicoFs.Tfs.Spec
import TecnicoFs.Tfs.Refinement
import TecnicoFs.Tfs.Statements
import TecnicoFs.Tfs.LockOrder
import TecnicoFs.Agreement.OneBlock
import TecnicoFs.Agreement.Transfers
import TecnicoFs.Wire.Request
import TecnicoFs.Wire.Receiver
import TecnicoFs.Wire.Framing
import TecnicoFs.Wire.Mixing
import TecnicoFs.Wire.Reply
import TecnicoFs.Wire.ReadReplies
import TecnicoFs.Wire.Fragments
import TecnicoFs.Wire.ServerPipe
import TecnicoFs.Wire.Reopening
import TecnicoFs.Wire.CutShort
import TecnicoFs.Sessions.Protocol
import TecnicoFs.Sessions.Invariant
import TecnicoFs.Sessions.Routing
import TecnicoFs.Sessions.ExactlyOnce
import TecnicoFs.Sessions.Progress
import TecnicoFs.Sessions.Service
import TecnicoFs.Sessions.Effects
import TecnicoFs.Sessions.Linearizable
import TecnicoFs.Sessions.ByteLevel
import TecnicoFs.Sessions.Answers
import TecnicoFs.Sessions.Transmission
import TecnicoFs.Sessions.Crash
import TecnicoFs.Sessions.Slots
import TecnicoFs.Sessions.SlotOrder
import TecnicoFs.Sessions.Intake
import TecnicoFs.Sessions.Mounted
import TecnicoFs.Sessions.LifeCycle
import TecnicoFs.Sessions.Draining
import TecnicoFs.Sessions.Closing
