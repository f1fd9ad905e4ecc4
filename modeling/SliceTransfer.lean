import SliceTransfer.Lib.TransitionSystem
import SliceTransfer.Lib.Segmentation
import SliceTransfer.Lib.Bytes
import SliceTransfer.Lib.Decimal
import SliceTransfer.Placement
import SliceTransfer.FileHeader
import SliceTransfer.Framing
import SliceTransfer.Fragmentation
import SliceTransfer.Containment
import SliceTransfer.EdgeTriggered
import SliceTransfer.HeaderOrder
import SliceTransfer.Connections
import SliceTransfer.Transfer
import SliceTransfer.Supervisor.Wake
import SliceTransfer.Supervisor.EndMarker
import SliceTransfer.Tiling
import SliceTransfer.Lib.Slots
import SliceTransfer.Pool.ThreadPool
import SliceTransfer.Pool.Conservation
import SliceTransfer.Pool.WakeUps
import SliceTransfer.HeaderGrammar
import SliceTransfer.EndOfStream
import SliceTransfer.Sender.Supervise
import SliceTransfer.Report
import SliceTransfer.Supervisor.EarlyMarker
import SliceTransfer.Failures
import SliceTransfer.FailureRuns
import SliceTransfer.Sender.Settings
import SliceTransfer.Isolation
import SliceTransfer.Feeding
import SliceTransfer.Lib.Memory
import SliceTransfer.Sender.SendFileSlice
import SliceTransfer.Sender.SendFileSize
import SliceTransfer.Acceptance
import SliceTransfer.Supervisor.ReportLoops
import SliceTransfer.Ledger
import SliceTransfer.Validation.ArrowUtil
import SliceTransfer.Validation.ValidUtil
import SliceTransfer.Lib.Progress
import SliceTransfer.Lib.Crew
import SliceTransfer.Completion
import SliceTransfer.Pool.Service
import SliceTransfer.Fleet
import SliceTransfer.Arrival
import SliceTransfer.DefaultJobs
import SliceTransfer.ServerRun
import SliceTransfer.Supervisor.InTime
import SliceTransfer.EdgeRun
import SliceTransfer.Sender.SendTasks
import SliceTransfer.Transmission
import SliceTransfer.Settlement
