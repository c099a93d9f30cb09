import Chime.LeafRuns
import Chime.Representation
import Chime.LeafSplits
import Chime.VacancyRead
import Chime.PartialRead
import Chime.InternalArray
import Chime.LeafChain
import Chime.CacheAccounting
import Chime.ClusterSum
import Chime.LockFreeSearch
import Chime.WriteCombining
import Chime.Handover
import Chime.LockExclusion
import Chime.Delegation
import Chime.RootGrowth
import Chime.LowerFence
import Chime.MapRefinement
import Chime.RangeQueryResult
import Chime.NodeExclusion
import Chime.TornSegment
import Chime.SegmentPatch
import Chime.Composite
import Chime.Cluster
import Chime.CacheAncestors
import Chime.EntryOwnership
import Chime.FaaBoundary
import Chime.MaskedCas
import Chime.CxlAlloc
import Chime.VacancyBuckets
import Chime.BufferSlots
import Chime.HoppingMetadata
import Chime.KeyBytes
import Chime.Progress
import Chime.LevelChains
import Chime.CachePages
import Chime.NodeSnapshot
import Chime.Coroutines
import Chime.IndirectTree
import Chime.Bootstrap
import Chime.Barrier
import Chime.Rpc
import Chime.WRLock
import Chime.QueryRuns
import Chime.SkipListProgress
