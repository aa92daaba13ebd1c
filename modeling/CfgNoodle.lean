import CfgNoodle.Lib.Framing
import CfgNoodle.Lib.Collect
import CfgNoodle.Lib.TopK
import CfgNoodle.Lib.Outcome
import CfgNoodle.Lib.Runs
import CfgNoodle.Lib.Simulation
import CfgNoodle.Lib.WriteBack
import CfgNoodle.Lib.LittleEndian
import CfgNoodle.Lib.Crc
import CfgNoodle.Elem
import CfgNoodle.SeqState
import CfgNoodle.Storage
import CfgNoodle.Wire
import CfgNoodle.StorageList
import CfgNoodle.Records
import CfgNoodle.Reads
import CfgNoodle.Garbage
import CfgNoodle.Writes
import CfgNoodle.Hydration
import CfgNoodle.Latest
import CfgNoodle.Persist
import CfgNoodle.Interrupted
import CfgNoodle.Calls
import CfgNoodle.CrashAtomic
import CfgNoodle.Rescan
import CfgNoodle.LiveData
import CfgNoodle.StorageNode
import CfgNoodle.CleanNodes
import CfgNoodle.Corruption
import CfgNoodle.Batches
import CfgNoodle.Transitions
import CfgNoodle.Wiped
import CfgNoodle.Sessions
import CfgNoodle.Worker
import CfgNoodle.WorkerTask
import CfgNoodle.WorkerFlush
import CfgNoodle.Tasks
import CfgNoodle.Exclusivity
import CfgNoodle.Typestate
import CfgNoodle.Membership
import CfgNoodle.Locations
import CfgNoodle.Scans
import CfgNoodle.AfterReads
import CfgNoodle.FailedWrites
import CfgNoodle.Flash
import CfgNoodle.Keys
import CfgNoodle.Sizes
import CfgNoodle.KeptRecords
import CfgNoodle.Store
import CfgNoodle.Shutdown
import CfgNoodle.ServeWrite
import CfgNoodle.Reboots
import CfgNoodle.Checksum
import CfgNoodle.Handles
import CfgNoodle.Signals
import CfgNoodle.Counters
import CfgNoodle.Space
import CfgNoodle.Clients
import CfgNoodle.NoOpWorker
import CfgNoodle.Upgrades
import CfgNoodle.Leftovers
import CfgNoodle.Queue
import CfgNoodle.Granularity
