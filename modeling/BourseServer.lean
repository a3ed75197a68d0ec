import BourseServer.Bytes.Word
import BourseServer.Concurrency.Coupling
import BourseServer.Concurrency.Cover
import BourseServer.Concurrency.Extension
import BourseServer.Concurrency.Faults
import BourseServer.Concurrency.Program
import BourseServer.Concurrency.RelyGuarantee
import BourseServer.Concurrency.Sequential
import BourseServer.Concurrency.Signals
import BourseServer.Concurrency.Tally
import BourseServer.Concurrency.Termination
import BourseServer.Concurrency.ThreadPool
import BourseServer.Concurrency.Triple
import BourseServer.Concurrency.Typestate
import BourseServer.Machine.Exec
import BourseServer.Machine.Frame
import BourseServer.Machine.State
import BourseServer.Main.Cells
import BourseServer.Main.Entry
import BourseServer.Main.Startup
import BourseServer.Protocol.Delivery
import BourseServer.Protocol.Packet
import BourseServer.Protocol.RoundTrip
import BourseServer.Protocol.Stream
import BourseServer.Protocol.Transfer
import BourseServer.Registry.Actions
import BourseServer.Registry.Calls
import BourseServer.Registry.Discipline
import BourseServer.Registry.Gate
import BourseServer.Registry.Handler
import BourseServer.Registry.Occupancy
import BourseServer.Registry.Operations
import BourseServer.Registry.Runs
import BourseServer.Registry.Shutdown
import BourseServer.Registry.Threads
import BourseServer.Registry.Tokens
import BourseServer.Registry.Unregistered
import BourseServer.Registry.Waiters
import BourseServer.Server.Acknowledgement
import BourseServer.Server.ByteOrder
import BourseServer.Server.CallStack
import BourseServer.Server.Conversation
import BourseServer.Server.Deeds
import BourseServer.Server.Disclosure
import BourseServer.Server.Doings
import BourseServer.Server.Ledger
import BourseServer.Server.LockRelease
import BourseServer.Server.Memory
import BourseServer.Server.PayloadOrigin
import BourseServer.Server.Process
import BourseServer.Server.Progress
import BourseServer.Server.Replies
import BourseServer.Server.Requests
import BourseServer.Server.Service
import BourseServer.Sessions.Actions
import BourseServer.Sessions.Connections
import BourseServer.Sessions.Discipline
import BourseServer.Sessions.Login
import BourseServer.Sessions.Overlap
import BourseServer.Sessions.Packets
import BourseServer.Sessions.Runs
import BourseServer.Sessions.Service
import BourseServer.Sessions.Shared
import BourseServer.Sessions.Steps
import BourseServer.Sessions.Traders
import BourseServer.Trader.Accounts
import BourseServer.Trader.Admission
import BourseServer.Trader.Broadcast
import BourseServer.Trader.BrokenPipe
import BourseServer.Trader.Clients
import BourseServer.Trader.Completion
import BourseServer.Trader.Directory
import BourseServer.Trader.Effects
import BourseServer.Trader.FreedAccess
import BourseServer.Trader.Heap
import BourseServer.Trader.Layout
import BourseServer.Trader.Lifetime
import BourseServer.Trader.Linearization
import BourseServer.Trader.LockBalance
import BourseServer.Trader.Nesting
import BourseServer.Trader.NewTrader
import BourseServer.Trader.Operations
import BourseServer.Trader.References
import BourseServer.Trader.Refinement
import BourseServer.Trader.Relogin
import BourseServer.Waiting.Code
import BourseServer.Waiting.Held
import BourseServer.Waiting.Link
import BourseServer.Waiting.Runs
