import GompUlt.Lib.Ring
import GompUlt.Lib.Chain
import GompUlt.Lib.Run
import GompUlt.Lib.LexPrefix
import GompUlt.Lib.ListSegment
import GompUlt.Lib.Arrangement
import GompUlt.Lib.CircularBuffer
import GompUlt.Lib.Counting
import GompUlt.Queue.PriorityList
import GompUlt.Queue.SplayTree
import GompUlt.Queue.HpList
import GompUlt.Queue.HpRuns
import GompUlt.Queue.PriorityQueue
import GompUlt.Queue.QueueRep
import GompUlt.Queue.QueueOps
import GompUlt.Queue.QueueRuns
import GompUlt.Queue.HighestPriority
import GompUlt.Queue.ListZones
import GompUlt.Queue.ListFrame
import GompUlt.Queue.ListRuns
import GompUlt.Depend.DependHash
import GompUlt.Depend.Chains
import GompUlt.Depend.Creation
import GompUlt.Depend.DependRuns
import GompUlt.Team.TaskQueue
import GompUlt.Team.TeamState
import GompUlt.Team.TeamStep
import GompUlt.Team.Frames
import GompUlt.Team.Lineage
import GompUlt.Loop.Doacross
import GompUlt.Loop.WorkShare
import GompUlt.State.StatePool
import GompUlt.State.PoolRuns
import GompUlt.Loop.Ordered
import GompUlt.Parallel.ThreadLimit
import GompUlt.Parallel.TeamBarrier
import GompUlt.Parallel.BarrierPhases
import GompUlt.Lib.Tiling
import GompUlt.Loop.Iter
import GompUlt.Loop.IterOps
import GompUlt.Loop.IterRuns
import GompUlt.Team.TaskShape
import GompUlt.Team.Placement
import GompUlt.Team.PlacementSteps
import GompUlt.Team.Release
import GompUlt.Team.Completion
import GompUlt.Team.DependLinks
import GompUlt.Team.TaskCreation
import GompUlt.Team.EventSteps
import GompUlt.Team.TeamRuns
import GompUlt.Team.Counters
import GompUlt.Team.Steady
import GompUlt.Team.ReadyCount
import GompUlt.Team.Membership
import GompUlt.Team.LockQueue
import GompUlt.Team.TaskgroupProgress
import GompUlt.Parallel.TeamLifeCycle
import GompUlt.Team.TiedAncestor
import GompUlt.Target.DeviceMap
import GompUlt.Target.MapCounts
import GompUlt.Target.MapVars
import GompUlt.Target.MapCalls
import GompUlt.Target.MapRuns
import GompUlt.Ult.Contexts
import GompUlt.Ult.Steps
import GompUlt.Ult.InLibgomp
import GompUlt.Ult.NonPreemptable
import GompUlt.Ult.TargetTasks
import GompUlt.Ult.TargetRuns
import GompUlt.Loop.StaticSched
import GompUlt.Queue.SplayNodes
import GompUlt.Loop.IterLength
import GompUlt.Loop.StoredChunk
import GompUlt.Loop.Bounds
import GompUlt.Loop.Taskloop
import GompUlt.Lib.Layout
import GompUlt.Lock.WaiterQueue
import GompUlt.Lock.TeamRelease
import GompUlt.Queue.NextTask
import GompUlt.Team.RunnableTasks
import GompUlt.Loop.DoacrossOwner
import GompUlt.Loop.DoacrossFlat
import GompUlt.Target.RectCopy
import GompUlt.Env.CpuAffinity
import GompUlt.Depend.PrimeTab
import GompUlt.Depend.HashTab
import GompUlt.Parallel.ThreadPlaces
import GompUlt.Parallel.PooledPlaces
import GompUlt.Target.IntervalMap
import GompUlt.Env.TopologyPlaces
import GompUlt.Env.PlaceList
import GompUlt.Target.BlockLayout
import GompUlt.Lib.BitFields
import GompUlt.Team.IpiMask
import GompUlt.Lib.Tally
import GompUlt.Team.TaskTimes
import GompUlt.Lib.Futex
import GompUlt.Sync.Wait
import GompUlt.Sync.Mutex
import GompUlt.Sync.Semaphore
import GompUlt.Sync.Ptrlock
import GompUlt.Sync.NestLock
import GompUlt.Loop.WorkShareChain
import GompUlt.Loop.WorkShareLive
import GompUlt.Loop.WorkShareRuns
import GompUlt.Loop.OrderedStatic
import GompUlt.Loop.OrderedStaticSteps
import GompUlt.Loop.OrderedStaticRuns
import GompUlt.Env.DisplayPlaces
import GompUlt.Loop.SingleStart
import GompUlt.Sync.CriticalName
import GompUlt.Parallel.Dock
import GompUlt.Parallel.DockSteps
import GompUlt.Parallel.DockRuns
