import Rushit.Common.Run
import Rushit.Common.Fold
import Rushit.Serialize.Model
import Rushit.Lua.Heap
import Rushit.Serialize.Extend
import Rushit.Serialize.Loading
import Rushit.Common.Acyclic
import Rushit.Serialize.Expand
import Rushit.Serialize.Recordable
import Rushit.Serialize.Termination
import Rushit.Lua.Agree
import Rushit.Lua.Weight
import Rushit.Serialize.Content
import Rushit.Serialize.Hooks
import Rushit.Serialize.RoundTrip
import Rushit.Serialize.Identity
import Rushit.Serialize.Order
import Rushit.Script.Model
import Rushit.Lua.Sequence
import Rushit.Script.Pull
import Rushit.Script.System
import Rushit.Serialize.Walk
import Rushit.Script.Loads
import Rushit.Script.Collect
import Rushit.Script.Nil
import Rushit.Script.Memory
import Rushit.TcpRr.Lockstep
import Rushit.Control.Clients
import Rushit.Control.Handshake
import Rushit.Common.Latest
import Rushit.Common.Grid
import Rushit.Control.Secret
import Rushit.Sample.Loop
import Rushit.Script.PacketHook
import Rushit.Stream.Events
import Rushit.Stream.Rows
import Rushit.Stream.Ties
import Rushit.TcpRr.Latency
import Rushit.TcpRr.Report
import Rushit.Workload.Descriptors
import Rushit.Common.Chain
import Rushit.Common.Rank
import Rushit.Numlist.Pool
import Rushit.Numlist.Percentile
import Rushit.Numlist.Release
import Rushit.Interval.Cells
import Rushit.TcpRr.Buffer
import Rushit.Common.CString
import Rushit.Common.Strtol
import Rushit.Hexdump.Decode
import Rushit.Logging.Message
import Rushit.Percentiles.RoundTrip
import Rushit.Common.Intern
import Rushit.Cpuinfo.Partition
import Rushit.Cpuinfo.Blocks
import Rushit.Workload.LocalHost
import Rushit.Common.Exchange
import Rushit.Flags.Run
import Rushit.Common.Origin
import Rushit.Stream.Correlation
import Rushit.Stream.Pace
import Rushit.Script.Strings
import Rushit.Script.Wrappers
import Rushit.Script.Store
import Rushit.Script.Depth
import Rushit.Common.HappensBefore
import Rushit.Stream.Workers
import Rushit.Stream.Recording
import Rushit.Stream.Report
import Rushit.Thread.Model
import Rushit.Thread.Order
import Rushit.Thread.Races
import Rushit.Thread.Progress
import Rushit.Lua.Transfer
import Rushit.Serialize.Keeps
import Rushit.Serialize.Supported
import Rushit.Script.Unchanged
import Rushit.Common.Ram
import Rushit.Flow.Model
import Rushit.Flow.Local
import Rushit.Flow.System
import Rushit.Flow.Lifetime
import Rushit.Flow.Follow
import Rushit.Flow.TcpRr
import Rushit.Flow.Stream
import Rushit.Trees.Engine
import Rushit.Sample.Csv
