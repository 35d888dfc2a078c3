import StegaPng.AccessLog
import StegaPng.Answers
import StegaPng.BitPacking
import StegaPng.BlockedSet
import StegaPng.Blocklist
import StegaPng.Bursts
import StegaPng.BytePipe
import StegaPng.CText
import StegaPng.Cancellation
import StegaPng.CapacityCheck
import StegaPng.ClientConversation
import StegaPng.ClientInStep
import StegaPng.ClientLines
import StegaPng.ClientProgram
import StegaPng.Commands
import StegaPng.Conduct
import StegaPng.Configuration
import StegaPng.Conservation
import StegaPng.Container
import StegaPng.Conversations
import StegaPng.DataSlots
import StegaPng.Decoder
import StegaPng.DecoderAccesses
import StegaPng.Downloads
import StegaPng.Duties
import StegaPng.Effects
import StegaPng.EmbedFrame
import StegaPng.EncodeOutcome
import StegaPng.EndToEnd
import StegaPng.Fifo
import StegaPng.Fragmentation
import StegaPng.Getopt
import StegaPng.History
import StegaPng.HistoryReport
import StegaPng.Image
import StegaPng.Interleaving
import StegaPng.Inventory
import StegaPng.Job
import StegaPng.JobLocks
import StegaPng.JobMemory
import StegaPng.JobNumbers
import StegaPng.JobOperations
import StegaPng.JobSections
import StegaPng.JobServed
import StegaPng.JobTimes
import StegaPng.Kicks
import StegaPng.LifeCycle
import StegaPng.Lifetimes
import StegaPng.LineFraming
import StegaPng.ListBuffers
import StegaPng.Locks
import StegaPng.LoopInvariants
import StegaPng.MainConduct
import StegaPng.Monitor
import StegaPng.Net
import StegaPng.NumberSyntax
import StegaPng.Ownership
import StegaPng.Pipeline
import StegaPng.PointerQueue
import StegaPng.PollLoop
import StegaPng.PollReadiness
import StegaPng.Privileges
import StegaPng.Processors
import StegaPng.Protocol
import StegaPng.Publication
import StegaPng.QueueDestroy
import StegaPng.QueueMonitor
import StegaPng.Reencoding
import StegaPng.ReflectedCrc
import StegaPng.Refusals
import StegaPng.Replies
import StegaPng.ReplyLines
import StegaPng.RoundTrip
import StegaPng.SeparatedList
import StegaPng.Server
import StegaPng.ServerRuns
import StegaPng.Serving
import StegaPng.SessionTable
import StegaPng.Sessions
import StegaPng.Shutdown
import StegaPng.SettingRanges
import StegaPng.Soundness
import StegaPng.StatsScan
import StegaPng.StegoHeap
import StegaPng.Stopping
import StegaPng.Storage
import StegaPng.System
import StegaPng.Termination
import StegaPng.Transactions
import StegaPng.Turns
import StegaPng.UploadPaths
import StegaPng.UploadTraces
import StegaPng.Uploads
import StegaPng.WholeArguments
import StegaPng.Worker
import StegaPng.WorkerConduct
import StegaPng.WorkerPipe
