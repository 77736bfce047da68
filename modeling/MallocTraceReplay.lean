import MallocTraceReplay.Lib.StepMachine
import MallocTraceReplay.Lib.PriorityQueue
import MallocTraceReplay.Abort
import MallocTraceReplay.Codec.AltVarint
import MallocTraceReplay.Codec.TraceEncoder
import MallocTraceReplay.Stream.Mapper
import MallocTraceReplay.Stream.MemStream
import MallocTraceReplay.Stream.OuterEvStream
import MallocTraceReplay.Serializer.Thread
import MallocTraceReplay.Serializer.Receiver
import MallocTraceReplay.Serializer.State
import MallocTraceReplay.Serializer.Serialize
import MallocTraceReplay.Postprocess.IdTree
import MallocTraceReplay.Postprocess.SimpleReceiver
import MallocTraceReplay.Replay.Instruction
import MallocTraceReplay.Replay.Replay
import MallocTraceReplay.Codec.Equiv.AltVarint
import MallocTraceReplay.Codec.TraceWriter
import MallocTraceReplay.Stream.Equiv.MemStream
import MallocTraceReplay.Stream.Equiv.ConstMemStream
import MallocTraceReplay.Stream.OuterRecord
import MallocTraceReplay.Stream.Equiv.OuterEvStream
import MallocTraceReplay.Stream.Equiv.StreamInvariant
import MallocTraceReplay.Stream.Equiv.TraceReader
import MallocTraceReplay.Serializer.Decoding
import MallocTraceReplay.Serializer.Equiv.Thread
import MallocTraceReplay.Serializer.Tokens
import MallocTraceReplay.Serializer.Trace
import MallocTraceReplay.Serializer.Equiv.Steps
import MallocTraceReplay.Serializer.Equiv.Input
import MallocTraceReplay.Serializer.Equiv.Scheduled
import MallocTraceReplay.Serializer.Equiv.Accounting
import MallocTraceReplay.Serializer.Equiv.Death
import MallocTraceReplay.Serializer.Equiv.Waiting
import MallocTraceReplay.Replay.Equiv.Threads
import MallocTraceReplay.Serializer.Equiv.Switching
import MallocTraceReplay.Serializer.Equiv.Protocol
import MallocTraceReplay.Lib.History
import MallocTraceReplay.Lib.Interleaving
import MallocTraceReplay.Lib.Bitmap
import MallocTraceReplay.Serializer.Equiv.Attribution
import MallocTraceReplay.Serializer.Equiv.Progress
import MallocTraceReplay.Serializer.Equiv.Completeness
import MallocTraceReplay.Codec.Equiv.TraceEncoder
import MallocTraceReplay.Serializer.Equiv.EventRoundTrip
import MallocTraceReplay.Stream.Equiv.RecordRoundTrip
import MallocTraceReplay.Serializer.Equiv.RoundTrip
import MallocTraceReplay.Postprocess.Equiv.IdTree
import MallocTraceReplay.Postprocess.Equiv.SimpleReceiver
import MallocTraceReplay.Postprocess.Equiv.Registers
import MallocTraceReplay.Lib.Buffer
import MallocTraceReplay.Codec.Equiv.Builds
import MallocTraceReplay.Codec.Equiv.VarintStream
import MallocTraceReplay.Stream.Equiv.NextProgress
import MallocTraceReplay.Stream.Equiv.Truncation
import MallocTraceReplay.Serializer.Equiv.Merge
import MallocTraceReplay.Serializer.Equiv.Unchecked
import MallocTraceReplay.Serializer.Equiv.Kills
import MallocTraceReplay.Codec.RecordStream
import MallocTraceReplay.Tally.EvCounter
import MallocTraceReplay.Serializer.Equiv.StreamCounts
import MallocTraceReplay.Tally.Equiv.EvCounter
import MallocTraceReplay.Tally.Equiv.Agreement
import MallocTraceReplay.Script.EventsStream
import MallocTraceReplay.Script.StreamDecoder
import MallocTraceReplay.Script.Equiv.EventsStream
import MallocTraceReplay.Script.Equiv.SameState
import MallocTraceReplay.Script.Equiv.Buffers
import MallocTraceReplay.Script.Equiv.Agreement
import MallocTraceReplay.Stream.Equiv.FDInputMapper
import MallocTraceReplay.Stream.Equiv.FDMemStream
import MallocTraceReplay.Stream.Equiv.Chunking
import MallocTraceReplay.Replay.Equiv.ThreadCaches
import MallocTraceReplay.Stream.Equiv.VarintReading
import MallocTraceReplay.Stream.Equiv.ConstProgress
import MallocTraceReplay.Serializer.Equiv.Termination
import MallocTraceReplay.Replay.Main
import MallocTraceReplay.Replay.Equiv.Main
import MallocTraceReplay.Stream.Equiv.Window
import MallocTraceReplay.Stream.CheckedMapper
import MallocTraceReplay.Stream.Equiv.CheckedMapper
import MallocTraceReplay.Stream.Equiv.MapperErasure
import MallocTraceReplay.Serializer.Equiv.FileImage
import MallocTraceReplay.Serializer.Equiv.QueuedBuffers
import MallocTraceReplay.Serializer.Equiv.Confluence
import MallocTraceReplay.Serializer.Equiv.Returns
import MallocTraceReplay.Postprocess.Equiv.Pipeline
import MallocTraceReplay.Lib.Allocation
import MallocTraceReplay.Replay.AllocatorCalls
import MallocTraceReplay.Replay.Equiv.AllocatorCalls
import MallocTraceReplay.Postprocess.Equiv.AllocatorCalls
import MallocTraceReplay.Postprocess.Equiv.ReplayedCalls
import MallocTraceReplay.Postprocess.Output
import MallocTraceReplay.Postprocess.Equiv.Output
import MallocTraceReplay.Postprocess.Equiv.Counters
import MallocTraceReplay.Lib.Bisimulation
import MallocTraceReplay.Serializer.Equiv.BufferMemory
import MallocTraceReplay.Serializer.Equiv.SameCalls
import MallocTraceReplay.Stream.Equiv.SameRecords
import MallocTraceReplay.Serializer.Equiv.RegularFile
import MallocTraceReplay.Serializer.Equiv.WrittenTrace
import MallocTraceReplay.Serializer.Equiv.ProgramRun
import MallocTraceReplay.Serializer.Equiv.WrittenFile
import MallocTraceReplay.Serializer.Equiv.ConsistentBarriers
import MallocTraceReplay.Postprocess.Equiv.RecordedRun
