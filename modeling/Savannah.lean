import Savannah.Foundation.Run
import Savannah.Foundation.BlockList
import Savannah.Foundation.DoublyLinked
import Savannah.Foundation.Holders
import Savannah.Foundation.Hoare
import Savannah.Foundation.Radix
import Savannah.Foundation.RadixOps
import Savannah.Foundation.Layout
import Savannah.Foundation.Exchange
import Savannah.Foundation.Bytes
import Savannah.Machine.Outcome
import Savannah.Memory.Defs
import Savannah.Memory.Refinement
import Savannah.Memory.Invariant
import Savannah.Memory.Allocation
import Savannah.Memory.Ledger
import Savannah.Pmap.Defs
import Savannah.Pmap.Tree
import Savannah.Pmap.Walk
import Savannah.Boot.Memory
import Savannah.Boot.Handover
import Savannah.Pm.State
import Savannah.Pm.Handlers
import Savannah.Pm.Tables
import Savannah.Vmm.Launch
import Savannah.Vmm.Processes
import Savannah.Pmap.FiniteMap
import Savannah.Fs.Server
import Savannah.Fs.Descriptors
import Savannah.Fs.Answers
import Savannah.Fs.Initrd
import Savannah.Ipc.System
import Savannah.Ipc.WaitGraph
import Savannah.Ipc.Messages
import Savannah.Ipc.Protocol
import Savannah.Ipc.ChannelClose
import Savannah.Ipc.ChannelUse
import Savannah.Ipc.ChannelMessages
import Savannah.Ipc.CloseEnd
import Savannah.Ipc.CloseWaits
import Savannah.Memory.Supply
import Savannah.Memory.Counting
import Savannah.Memory.Canonical
import Savannah.Pmap.Nested
import Savannah.Pmap.Supply
import Savannah.Pmap.Release
import Savannah.Pm.Record
import Savannah.Pm.Mapping
import Savannah.Pm.Regions
import Savannah.Pm.Supply
import Savannah.Pm.Guest
import Savannah.Pm.Release
import Savannah.Pm.OpenFiles
import Savannah.Boot.Builder
import Savannah.Boot.Agreement
import Savannah.Boot.Heap
import Savannah.Boot.Processors
import Savannah.Pm.ExecPath
import Savannah.Pm.Frame
import Savannah.Ipc.ReceiveAny
import Savannah.Lib.Threads
import Savannah.Lib.Format
import Savannah.Lib.Truncation
import Savannah.Lib.Atoi
import Savannah.Drivers.CharDevice
import Savannah.Drivers.Console
import Savannah.Foundation.Slots
import Savannah.Foundation.Numeral
import Savannah.Drivers.Network
import Savannah.Memory.Index
import Savannah.Lib.Rendering
import Savannah.Drivers.Keyboard
import Savannah.Pm.Processes
import Savannah.Pm.Waiting
import Savannah.Foundation.ZeroTerminated
import Savannah.Pm.Account
import Savannah.Pm.Registry
import Savannah.Pm.Books
import Savannah.Pm.Machine
import Savannah.Pm.Fork
import Savannah.Pm.Exit
import Savannah.Pm.Load
import Savannah.Pm.Ownership
import Savannah.Pm.Devices
import Savannah.Pm.ForkMemory
