import NetworkDemo.Foundations.Runs
import NetworkDemo.Foundations.Fields
import NetworkDemo.Foundations.Loops
import NetworkDemo.Foundations.Footprints
import NetworkDemo.Foundations.Blocks
import NetworkDemo.Foundations.Stores
import NetworkDemo.Foundations.Lanes
import NetworkDemo.Foundations.Readers
import NetworkDemo.Foundations.Interleave
import NetworkDemo.Foundations.Doubling
import NetworkDemo.Sync.AbBarrier
import NetworkDemo.Sync.BarrierInvariant
import NetworkDemo.Sync.Cyclic
import NetworkDemo.Gang.Protocol
import NetworkDemo.Gang.FlagWord
import NetworkDemo.Gang.Invariant
import NetworkDemo.Gang.Record
import NetworkDemo.Gang.Submit
import NetworkDemo.Gang.Drive
import NetworkDemo.Gang.StaleFlag
import NetworkDemo.Gang.Destructor
import NetworkDemo.Gang.Shutdown
import NetworkDemo.Gang.Ranges
import NetworkDemo.Gang.Tasks
import NetworkDemo.Foundations.Tickets
import NetworkDemo.Gang.Teams
import NetworkDemo.Gang.Wrapping
import NetworkDemo.Gang.FullRange
import NetworkDemo.Gang.PerCpu
import NetworkDemo.GangUtil.Integers
import NetworkDemo.GangUtil.Scan
import NetworkDemo.GangUtil.ScanGeneric
import NetworkDemo.GangUtil.ScanWidths
import NetworkDemo.GangUtil.CountSerial
import NetworkDemo.GangUtil.Count
import NetworkDemo.GangUtil.BoolWords
import NetworkDemo.GangUtil.Pack
import NetworkDemo.Foundations.CasLoops
import NetworkDemo.Gang.Atomics
import NetworkDemo.Foundations.Pools
import NetworkDemo.Gang.Calls
import NetworkDemo.Gang.Races
import NetworkDemo.Gang.Whole
import NetworkDemo.GangUtil.Reduce
import NetworkDemo.GangUtil.Submits
import NetworkDemo.GangUtil.Interleaved
import NetworkDemo.SIMD.Matrix
import NetworkDemo.SIMD.Interleaved
import NetworkDemo.GangUtil.Dedup
import NetworkDemo.GangUtil.Distinct
import NetworkDemo.StopWatch.AtomicStopwatch
import NetworkDemo.StopWatch.Exclusive
import NetworkDemo.StopWatch.RateLimit
import NetworkDemo.StopWatch.Stopwatch
import NetworkDemo.Foundations.Smear
import NetworkDemo.Foundations.Records
import NetworkDemo.Foundations.Traces
import NetworkDemo.PODArray.Sizes
import NetworkDemo.PODArray.Heap
import NetworkDemo.PODArray.Arrays
import NetworkDemo.PODArray.Ownership
import NetworkDemo.PODArray.Methods
import NetworkDemo.PODArray.Refinement
import NetworkDemo.PODArray.Requests
import NetworkDemo.PODArray.Bounds
import NetworkDemo.PODArray.Insert
import NetworkDemo.PODArray.Reserve
import NetworkDemo.PODArray.Alias
import NetworkDemo.PODArray.Clone
import NetworkDemo.PODArray.SmallInsert
import NetworkDemo.PODArray.Growth
import NetworkDemo.PODArray.Equality
import NetworkDemo.Split.StringSplit
import NetworkDemo.Hash.HashUpdate
import NetworkDemo.SysCmd.ExeCmd
import NetworkDemo.Rpc.Protocol
import NetworkDemo.Rpc.Binary
import NetworkDemo.Rpc.Records
import NetworkDemo.Rpc.Processor
import NetworkDemo.Rpc.Client
import NetworkDemo.Rpc.Connections
import NetworkDemo.Rpc.Concurrent
import NetworkDemo.Rpc.ConcurrentRuns
import NetworkDemo.Rpc.Linearizable
import NetworkDemo.Rpc.Handlers
