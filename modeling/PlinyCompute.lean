import PlinyCompute.BufferManager
import PlinyCompute.MapScan
import PlinyCompute.VectorScan
import PlinyCompute.BufferMemory
import PlinyCompute.BufferSlots
import PlinyCompute.BufferPins
import PlinyCompute.BufferEvict
import PlinyCompute.BufferSpace
import PlinyCompute.BufferCore
import PlinyCompute.BufferFree
import PlinyCompute.BufferStep
import PlinyCompute.BufferCalls
import PlinyCompute.BufferAliasing
import PlinyCompute.Tiling
import PlinyCompute.DiskSpace
import PlinyCompute.DiskCalls
import PlinyCompute.NumberPool
import PlinyCompute.BufferThreads
import PlinyCompute.BufferThreadFrames
import PlinyCompute.BufferThreadNumbers
import PlinyCompute.BufferThreadCalls
import PlinyCompute.BufferThreadRuns
import PlinyCompute.MetadataFile
import PlinyCompute.MetadataValues
import PlinyCompute.BufferRestart
import PlinyCompute.BufferOpenFiles
import PlinyCompute.BufferFlush
import PlinyCompute.BufferMetadata
import PlinyCompute.BufferReload
import PlinyCompute.BufferPlaces
import PlinyCompute.BufferGenerations
import PlinyCompute.NodeRestart
import PlinyCompute.BufferAccounting
import PlinyCompute.BufferDisk
import PlinyCompute.BufferWriteBack
import PlinyCompute.BufferContents
import PlinyCompute.BufferReads
import PlinyCompute.ReadYourWrites
import PlinyCompute.Probing
import PlinyCompute.PdbVector
import PlinyCompute.PdbMap
import PlinyCompute.Preaggregation
import PlinyCompute.Aggregation
import PlinyCompute.PdbJoinMap
import PlinyCompute.Sinks
import PlinyCompute.PipelineRun
import PlinyCompute.KWayMerge
import PlinyCompute.ShuffleJoin
import PlinyCompute.ShuffleJoinMatch
import PlinyCompute.ShuffleJoinRows
import PlinyCompute.ShuffleJoinExact
import PlinyCompute.JoinMapCopy
import PlinyCompute.MapSizes
import PlinyCompute.MapAtomic
import PlinyCompute.MapUndo
import PlinyCompute.Allocator
import PlinyCompute.AllocatorTiling
import PlinyCompute.Handle
import PlinyCompute.HandleCounting
import PlinyCompute.HandleCopies
import PlinyCompute.HandleRuns
import PlinyCompute.HandleLifetime
import PlinyCompute.MaximalMunch
import PlinyCompute.LogicalPlan
import PlinyCompute.TcapLexer
import PlinyCompute.TcapParser
import PlinyCompute.TcapRoundTrip
import PlinyCompute.PipeBuilder
import PlinyCompute.PipeTraversal
import PlinyCompute.PipeGraph
import PlinyCompute.PipeFaithful
import PlinyCompute.PhysicalOptimizer
import PlinyCompute.PipeLayout
import PlinyCompute.PipePlanning
import PlinyCompute.OptimizerRounds
import PlinyCompute.ScheduleCover
import PlinyCompute.ScheduleSound
import PlinyCompute.PhysicalSchedule
import PlinyCompute.RangeSum
import PlinyCompute.SetLocks
import PlinyCompute.JobLocks
import PlinyCompute.JobOutcome
import PlinyCompute.CompletionBarrier
import PlinyCompute.FeedingPageSet
import PlinyCompute.FeedingEnd
import PlinyCompute.SharedCursor
import PlinyCompute.AlgorithmSetup
import PlinyCompute.StorageFrontend
import PlinyCompute.DistributedScan
import PlinyCompute.StorageHandlers
import PlinyCompute.StorageAccounting
import PlinyCompute.BinaryFormat
import PlinyCompute.StorageMetadata
import PlinyCompute.ComputationTables
import PlinyCompute.PlanTransformer
import PlinyCompute.TableConsistency
import PlinyCompute.PlanDropping
import PlinyCompute.PlanRuns
import PlinyCompute.AttributeFlow
import PlinyCompute.KeyWalks
import PlinyCompute.KeySides
import PlinyCompute.KeyJoins
import PlinyCompute.KeyAggregations
import PlinyCompute.KeyRuns
import PlinyCompute.Catalog
import PlinyCompute.BroadcastJoin
import PlinyCompute.BroadcastReaders
import PlinyCompute.AddData
import PlinyCompute.ClearRequests
import PlinyCompute.FrontEndRequests
import PlinyCompute.PageForwarding
import PlinyCompute.SizeRequests
import PlinyCompute.ClearSet
import PlinyCompute.LruOrder
import PlinyCompute.TypeIds
import PlinyCompute.Materialization
import PlinyCompute.MaterializationTables
import PlinyCompute.MaterializationBackend
import PlinyCompute.MaterializationFrontend
import PlinyCompute.MaterializationRuns
import PlinyCompute.PageLabels
import PlinyCompute.PageSizes
import PlinyCompute.SentSizes
import PlinyCompute.PageSizeRuns
import PlinyCompute.MapAtomic
import PlinyCompute.JoinMapUndo
import PlinyCompute.BinaryHeap
import PlinyCompute.Largest
import PlinyCompute.TopKQueue
import PlinyCompute.TopKTrees
import PlinyCompute.CountedHeap
import PlinyCompute.PdbString
import PlinyCompute.StringKeys
import PlinyCompute.RequestSizes
import PlinyCompute.HandleContainers
import PlinyCompute.HandleUnwinding
import PlinyCompute.HandleRollback
import PlinyCompute.HandleLeaks
import PlinyCompute.TupleSets
import PlinyCompute.Executors
import PlinyCompute.ExecutorRows
import PlinyCompute.ExecutorRuns
import PlinyCompute.SizePolicyRuns
import PlinyCompute.TupleSetSplit
import PlinyCompute.JoinPartners
import PlinyCompute.AggregationSplit
import PlinyCompute.OrderedSet
import PlinyCompute.SourceQueue
import PlinyCompute.ScanList
import PlinyCompute.DroppedComputations
import PlinyCompute.AttributeSources
import PlinyCompute.RHSTupleSets
import PlinyCompute.PageUse
import PlinyCompute.TemporaryBlocks
import PlinyCompute.CommunicatorRuns
import PlinyCompute.WorkerQueueRuns
