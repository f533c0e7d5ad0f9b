import Cccl.Scan.StableLookback
import Cccl.Scan.Completion
import Cccl.Stf.Reclaim
import Cccl.Stf.Reconstruct
import Cccl.Stf.RaceFree
import Cccl.Stf.BuddyReuse
import Cccl.Stf.StreamOrder
import Cccl.Cuco.Cover
import Cccl.Cuco.Primality
import Cccl.Cuco.AssignInv
import Cccl.Cuco.BloomAdd
import Cccl.Places.BlockPlan
import Cccl.MergeSort.PairwiseSort
import Cccl.MergeSort.DeviceMergeSort
import Cccl.Rle.Encode
import Cccl.Random.PcgPeriod
import Cccl.RadixSort.FieldOrder
import Cccl.RadixSort.Onesweep
import Cccl.Pool.DisjointSafe
import Cccl.Pool.UnsynchronizedSafe
import Cccl.Bit.BitCompress
import Cccl.Histogram.EvenBins
import Cccl.BatchMemcpy.CounterWraps
import Cccl.BatchMemcpy.VectorizedReads
import Cccl.Rle.Exact
import Cccl.Cmath.FastModDivExact
import Cccl.Cmath.Isqrt
import Cccl.Cmath.Ipow
import Cccl.Format.BufferExact
import Cccl.Mdspan.SubmdspanExact
import Cccl.Mdspan.VectorCopyExact
import Cccl.Mdspan.DlpackExact
import Cccl.Chrono.Months
import Cccl.Numeric.DivOverflow
import Cccl.Random.PhiloxProduct
import Cccl.Random.RandomBijection
import Cccl.Random.LinearCongruentialJump
import Cccl.Random.UniformInt
import Cccl.Format.Validation
import Cccl.CachingAllocator.BinRuns
import Cccl.Stf.MergedDeps
import Cccl.Stf.Reorderer
import Cccl.Grid.EvenShare
import Cccl.Places.BlockedPartition
import Cccl.Places.CyclicExact
import Cccl.SetOperations.BiasedSearch
import Cccl.Temporary.AliasTemporaries
