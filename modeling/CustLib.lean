import CustLib.Std.ListHead
import CustLib.Std.HashmapInv
import CustLib.Std.HashmapRefine
import CustLib.Execution.Structure
import CustLib.Execution.Wakeups
import CustLib.Execution.BlockOn
import CustLib.Execution.Io
import CustLib.Execution.Children
import CustLib.Execution.Outputs
import CustLib.Execution.VirtualTime
import CustLib.Execution.StateMachine
import CustLib.Std.Ledger
import CustLib.Std.Protocol
import CustLib.Std.Refcount
import CustLib.Execution.Descriptors
import CustLib.Execution.Host
import CustLib.Execution.NullFuture
import CustLib.Execution.Boxes
import CustLib.Execution.StaleTimers
import CustLib.Execution.Completion
import CustLib.Execution.Frontier
import CustLib.Execution.ReadyBox
import CustLib.Execution.SelectFree
import CustLib.Execution.Shortage
import CustLib.Execution.Sleeps
import CustLib.Execution.TimerQueue
import CustLib.Execution.WriteAll
import CustLib.Std.HashmapChurn
import CustLib.Std.HashmapCost
import CustLib.Std.HashmapProbes
import CustLib.Std.Doubling
import CustLib.Std.HashmapIter
import CustLib.Std.Reallocate
import CustLib.Std.Reset
import CustLib.Execution.Connection
import CustLib.Execution.EchoMachine
import CustLib.Execution.IoWaiting
import CustLib.Execution.Handles
import CustLib.Execution.Fairness
import CustLib.Std.StringKeys
import CustLib.Std.Drain
