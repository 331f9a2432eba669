import DistFuzz.Lib.ByteMap
import DistFuzz.Lib.BitString
import DistFuzz.Lib.Words
import DistFuzz.Lib.MaxRuns
import DistFuzz.Lib.Outcome
import DistFuzz.Lib.Rewrites
import DistFuzz.Lib.Runs
import DistFuzz.Lib.Threads
import DistFuzz.Lib.Critical
import DistFuzz.Lib.Hub
import DistFuzz.Lib.Block
import DistFuzz.Lib.Draw
import DistFuzz.Lib.Flags
import DistFuzz.Lib.Selection
import DistFuzz.Lib.Diffs
import DistFuzz.Lib.PrefixCode
import DistFuzz.Lib.Timespec
import DistFuzz.Lib.CreateOnly
import DistFuzz.Lib.Mixing
import DistFuzz.CoverageMap
import DistFuzz.Random
import DistFuzz.RandomStream
import DistFuzz.Injector.Coverage
import DistFuzz.Injector.Hits
import DistFuzz.Injector.Tracee
import DistFuzz.Injector.Event
import DistFuzz.Injector.Decode
import DistFuzz.Injector.SyscallStop
import DistFuzz.Injector.PhaseFlag
import DistFuzz.Injector.Rr
import DistFuzz.Injector.HashFormula
import DistFuzz.Injector.RrHash
import DistFuzz.Injector.Budget
import DistFuzz.Injector.Duplication
import DistFuzz.Injector.MessageLength
import DistFuzz.Injector.Loss
import DistFuzz.Injector.Delay
import DistFuzz.Injector.DelayTimer
import DistFuzz.Injector.Tamper
import DistFuzz.Injector.Causality
import DistFuzz.Bpf.Injector
import DistFuzz.Bpf.Descriptors
import DistFuzz.Bpf.Merge
import DistFuzz.Bpf.PathFilter
import DistFuzz.Bpf.Schedule
import DistFuzz.Bpf.Neighbours
import DistFuzz.Fuzzer.NewBits
import DistFuzz.Fuzzer.Queue
import DistFuzz.Fuzzer.CountClass
import DistFuzz.Fuzzer.Interesting
import DistFuzz.Fuzzer.ExecuteCase
import DistFuzz.Fuzzer.Crashes
import DistFuzz.Fuzzer.Campaign
import DistFuzz.Fuzzer.Replace
import DistFuzz.Fuzzer.Scheduler
import DistFuzz.Fuzzer.Favored
import DistFuzz.Fuzzer.QueueTop
import DistFuzz.Fuzzer.GreedyCover
import DistFuzz.Fuzzer.Sync
import DistFuzz.Fuzzer.SyncSetup
import DistFuzz.Fuzzer.Tokens
import DistFuzz.Fuzzer.Trim
import DistFuzz.Fuzzer.Deterministic
import DistFuzz.Fuzzer.ReplaceSkips
import DistFuzz.Fuzzer.Pass
import DistFuzz.Fuzzer.Dictionary
import DistFuzz.Fuzzer.DictionaryCases
import DistFuzz.Fuzzer.Havoc
import DistFuzz.Fuzzer.HavocBounds
import DistFuzz.Fuzzer.HavocRounds
import DistFuzz.Fuzzer.Splice
import DistFuzz.Fuzzer.Stages
import DistFuzz.Fuzzer.Arithmetic
import DistFuzz.Fuzzer.BitFlip
import DistFuzz.Fuzzer.BitflipSkips
import DistFuzz.Fuzzer.ControlMatrix
import DistFuzz.Fuzzer.Injection
import DistFuzz.Fuzzer.FaultSets
import DistFuzz.Fuzzer.Exchange
import DistFuzz.Fuzzer.Store
import DistFuzz.Fuzzer.Checksum
import DistFuzz.Harness.NodeManager
import DistFuzz.Harness.GraceStop
import DistFuzz.Harness.EventControl
import DistFuzz.Harness.Client
import DistFuzz.Harness.InitOperator
import DistFuzz.Harness.SplitFiles
import DistFuzz.Harness.Shares
import DistFuzz.Harness.Cluster
import DistFuzz.Injector.Arena
import DistFuzz.Harness.TestMain
import DistFuzz.Harness.Rounds
import DistFuzz.Harness.FuzzingFlag
import DistFuzz.Fuzzer.Rotation
