import Challenges.Lib.Loop
import Challenges.Lib.Chain
import Challenges.Lib.Stock
import Challenges.Lib.Follow
import Challenges.Lib.Find
import Challenges.Lib.Arrival
import Challenges.Lib.Pool
import Challenges.Lib.Trap
import Challenges.Kmalloc.Machine
import Challenges.Kmalloc.Port
import Challenges.Kmalloc.Original
import Challenges.Kmalloc.SizeClass
import Challenges.Kmalloc.Blocks
import Challenges.Kmalloc.PortSpec
import Challenges.Kmalloc.Client
import Challenges.Kmalloc.Heap
import Challenges.Kmalloc.Calls
import Challenges.Kmalloc.Ownership
import Challenges.Kmalloc.Growth
import Challenges.Kmalloc.Alignment
import Challenges.Kmalloc.GlobalAlloc
import Challenges.Kmalloc.Simulation
import Challenges.Kmalloc.Capacity
import Challenges.Kmalloc.DoubleFree
import Challenges.Kmalloc.FailedInit
import Challenges.Kmalloc.Contents
import Challenges.Kmalloc.Classes
import Challenges.Kmalloc.UsableSize
import Challenges.Kmalloc.Findbucket
import Challenges.Kmalloc.Compaction
import Challenges.Kmalloc.Kcalloc
import Challenges.Kmalloc.Checked
import Challenges.Kmalloc.Overflow
import Challenges.Kmalloc.Carve
import Challenges.FindString.Program
import Challenges.FindString.Search
import Challenges.FindString.Matches
import Challenges.FindString.SmallFile
import Challenges.FindString.Threads
import Challenges.FindString.Schedules
import Challenges.FindString.WholeFile
import Challenges.FindString.ChunkLoop
import Challenges.Slab.Program
import Challenges.Slab.Client
import Challenges.Slab.Slots
import Challenges.Slab.Disjoint
import Challenges.Slab.Zeroed
import Challenges.Slab.Accounting
import Challenges.Slab.Overrun
import Challenges.Atomics.Program
import Challenges.Atomics.CompareAndSwap
import Challenges.Atomics.Add
import Challenges.Atomics.Register
import Challenges.Lib.Atomic
import Challenges.Lib.Routine
import Challenges.Lib.Words
import Challenges.Atomics.Interface
import Challenges.Atomics.Linearizable
import Challenges.Kmalloc.Stale
import Challenges.Kmalloc.Ideal
import Challenges.Kmalloc.Refinement
import Challenges.Kmalloc.RustHeap
import Challenges.FindString.ShortReads
import Challenges.FindString.WholeProgram
import Challenges.Slab.Ideal
import Challenges.Slab.Refinement
import Challenges.Slab.Twice
import Challenges.Slab.Fewest
import Challenges.Kmalloc.Footprint
import Challenges.Kmalloc.Wide
