import Femu.Pqueue
import Femu.Pqueue.Order
import Femu.Lib.Loop
import Femu.Lib.Count
import Femu.Lib.Log
import Femu.Lib.Traced
import Femu.Lib.Outcome
import Femu.Lib.Tailq
import Femu.Lib.Store
import Femu.Lib.Transition
import Femu.Lib.Ring
import Femu.Lib.PhaseRing
import Femu.Lib.Bits
import Femu.Lib.Buffer
import Femu.Lib.Fields
import Femu.Lib.Runs
import Femu.Lib.Chained
import Femu.Bbssd.Params
import Femu.Bbssd.Line
import Femu.Bbssd.Ftl
import Femu.Bbssd.PageIndex
import Femu.Bbssd.Correct
import Femu.Bbssd.Collect
import Femu.Bbssd.Translation
import Femu.Bbssd.Victim
import Femu.Bbssd.Request
import Femu.Bbssd.Timing
import Femu.Bbssd.Latency
import Femu.Nvme.Io
import Femu.Nvme.IoBounds
import Femu.Nvme.DramSpec
import Femu.Nvme.Bitmap
import Femu.Nvme.Uncorrectable
import Femu.Nvme.Prp
import Femu.Nvme.PrpList
import Femu.Nvme.Compare
import Femu.Nvme.Discontig
import Femu.Nvme.Cmb
import Femu.Admin.Format
import Femu.Ocssd.Oc20
import Femu.Ocssd.Oc12Meta
import Femu.Ocssd.Oc20Bounds
import Femu.Ocssd.ReadMask
import Femu.Ocssd.WriteRuns
import Femu.Ocssd.Geometry
import Femu.Ocssd.LogPage
import Femu.Ocssd.Scatter
import Femu.Ocssd.Oc12
import Femu.Ocssd.Oc12Bounds
import Femu.Ocssd.Decode
import Femu.Ocssd.Bbt
import Femu.Ocssd.PpaList
import Femu.Ocssd.ChipIndex
import Femu.Ocssd.Chunk
import Femu.Ocssd.ChunkState
import Femu.Ocssd.Oc20Address
import Femu.Ocssd.Sectors
import Femu.Nand.Timing
import Femu.Zns.Zone
import Femu.Zns.Command
import Femu.Zns.Accounting
import Femu.Zns.Transitions
import Femu.Zns.Bulk
import Femu.Zns.Write
import Femu.Zns.Report
import Femu.Zns.Resources
import Femu.Zns.Failure
import Femu.Zns.WritePointer
import Femu.Zns.Append
import Femu.Zns.Reformat
import Femu.Zns.Read
import Femu.Zns.SelectAll
import Femu.Zns.SendFailure
import Femu.Simbricks.Sb2q
import Femu.Simbricks.Q2sb
import Femu.Qemu.Props
import Femu.Simbricks.Adapter
import Femu.Simbricks.Notify
import Femu.Simbricks.Notify.References
import Femu.Simbricks.Notify.Order
import Femu.Simbricks.Notify.Memory
import Femu.Simbricks.Notify.Coherence
import Femu.Lib.Fifo
import Femu.Lib.Ledger
import Femu.Queue.Defs
import Femu.Queue.Table
import Femu.Queue.Refused
import Femu.Queue.Io
import Femu.Queue.Doorbell
import Femu.Queue.Controller
import Femu.Queue.Mmio
import Femu.Queue.Fetch
import Femu.Queue.Flow
import Femu.Queue.Account
import Femu.Queue.Lifetime
import Femu.Queue.Routing
import Femu.Queue.Pass
import Femu.Queue.Completion
import Femu.Queue.Overflow
import Femu.Queue.Interrupt
import Femu.Queue.Phase
import Femu.Queue.Poller
import Femu.Queue.Pool
import Femu.Lib.Claims
import Femu.Lib.BoundedQueue
import Femu.Lib.Disk
import Femu.Lib.PriorityQueue
import Femu.Rte.Ring
import Femu.Rte.Create
import Femu.Rte.Invariant
import Femu.Rte.Steps
import Femu.Rte.Queue
import Femu.Rte.Progress
import Femu.Rte.Consumer
import Femu.Nvme.Disk
import Femu.Zns.Logs
import Femu.Pqueue.Runs
import Femu.Lib.Potential
import Femu.Queue.Drain
