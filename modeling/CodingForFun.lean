import CodingForFun.Lib.Loop
import CodingForFun.Lib.Cells
import CodingForFun.Lib.Dict
import CodingForFun.Lib.MinHeap
import CodingForFun.Lib.SpanningTree
import CodingForFun.Lib.TreeGrowth
import CodingForFun.Lib.ShortestPath
import CodingForFun.Lib.AllPairs
import CodingForFun.Lib.BTree
import CodingForFun.Lib.Threads
import CodingForFun.Lib.Ring
import CodingForFun.Lib.Tickets
import CodingForFun.Lib.Chain
import CodingForFun.Lib.Monitor
import CodingForFun.Lib.DoublyLinked
import CodingForFun.Lib.Memory
import CodingForFun.Lib.Runs
import CodingForFun.Lib.SearchTree
import CodingForFun.Lib.LinkedTree
import CodingForFun.Lib.Rearrangement
import CodingForFun.Lib.Window
import CodingForFun.Lib.MaxHeap
import CodingForFun.Lib.Merge
import CodingForFun.Lib.Buckets
import CodingForFun.Lib.GraphSearch
import CodingForFun.Lib.Orbit
import CodingForFun.Lib.Firsts
import CodingForFun.Lib.Stretches
import CodingForFun.Lib.CellList
import CodingForFun.Lib.Bits
import CodingForFun.Lib.CString
import CodingForFun.Lib.CommonSubsequence
import CodingForFun.Lib.Interleaving
import CodingForFun.Lib.Sequence
import CodingForFun.Lib.Arrangements
import CodingForFun.Lib.Choices
import CodingForFun.Lib.Intervals
import CodingForFun.Lib.Writes
import CodingForFun.Lib.ZerosLast
import CodingForFun.Lib.Overlap
import CodingForFun.Lib.Binary64
import CodingForFun.Lib.PhaseRing
import CodingForFun.Lib.IdPool
import CodingForFun.Lib.PagedList
import CodingForFun.Lib.IndexParity
import CodingForFun.Lib.BinaryProduct
import CodingForFun.Lib.ByteMemory
import CodingForFun.Lib.Arm
import CodingForFun.Lib.RefCount
import CodingForFun.Lib.NestedLoop
import CodingForFun.Lib.TreeDepth
import CodingForFun.Lib.Resources
import CodingForFun.PriorityQueue.Basic
import CodingForFun.PriorityQueue.Push
import CodingForFun.PriorityQueue.AdjustTree
import CodingForFun.PriorityQueue.Runs
import CodingForFun.PriorityQueue.Bounds
import CodingForFun.PriorityQueue.ChangePriority
import CodingForFun.PrimPqueue.Basic
import CodingForFun.PrimPqueue.Round
import CodingForFun.PrimPqueue.Correct
import CodingForFun.GraphProblems.Basic
import CodingForFun.GraphProblems.Labels
import CodingForFun.GraphProblems.Dijkstra
import CodingForFun.GraphProblems.Prim
import CodingForFun.GraphProblems.FloydWarshall
import CodingForFun.GraphProblems.Agreement
import CodingForFun.GraphProblems.Exploring
import CodingForFun.GraphProblems.Dfs
import CodingForFun.GraphProblems.Bfs
import CodingForFun.Btree.Basic
import CodingForFun.Btree.Nodes
import CodingForFun.Btree.Refine
import CodingForFun.Btree.Insert
import CodingForFun.Btree.Shape
import CodingForFun.Btree.Contents
import CodingForFun.ProducerConsumerCondv.Basic
import CodingForFun.ProducerConsumerCondv.Steps
import CodingForFun.ProducerConsumerCondv.Wakeups
import CodingForFun.ProducerConsumerRing
import CodingForFun.DoublelockQueue
import CodingForFun.PollDev.Basic
import CodingForFun.PollDev.Stream
import CodingForFun.PollDev.Eof
import CodingForFun.ProducerConsumerBuffer
import CodingForFun.ProducerConsumerSemaphore
import CodingForFun.ProducerConsumerCondv2.Basic
import CodingForFun.ProducerConsumerCondv2.Steps
import CodingForFun.ProducerConsumerCondv2.Wakeups
import CodingForFun.BlockFreeLinkedList.Basic
import CodingForFun.BlockFreeLinkedList.Nodes
import CodingForFun.BlockFreeLinkedList.Order
import CodingForFun.MultiProducerConsumerLockfree.Basic
import CodingForFun.MultiProducerConsumerLockfree.Indices
import CodingForFun.MultiProducerConsumerLockfree.Minima
import CodingForFun.MultiProducerConsumerLockfree.Slots
import CodingForFun.AllLinkedLists.Basic
import CodingForFun.AllLinkedLists.Double
import CodingForFun.AllLinkedLists.Circular
import CodingForFun.AllLinkedLists.Single
import CodingForFun.AllLinkedLists.SingleCircular
import CodingForFun.Linkedlist
import CodingForFun.Linkedlistproblems.Basic
import CodingForFun.Linkedlistproblems.Detectloop
import CodingForFun.Linkedlistproblems.Ispalindrome
import CodingForFun.Linkedlistproblems.RemoveDuplicates
import CodingForFun.Linkedlistproblems.Collisions
import CodingForFun.Bstproblems
import CodingForFun.BinarySearchTree
import CodingForFun.Dictlast
import CodingForFun.SystickDriver
import CodingForFun.Cppconcentrated
import CodingForFun.Scheduler
import CodingForFun.Chardevice
import CodingForFun.Rtl8139.Transmit
import CodingForFun.Rtl8139.Interrupt
import CodingForFun.Rtl8139.Receive
import CodingForFun.I2cDriver.Basic
import CodingForFun.I2cDriver.Transfers
import CodingForFun.I2cDriver.Bus
import CodingForFun.Sorting.Basic
import CodingForFun.Sorting.Quadratic
import CodingForFun.Sorting.Quicksort
import CodingForFun.Sorting.Heapsort
import CodingForFun.Sorting.Shellsort
import CodingForFun.Sorting.Mergesort
import CodingForFun.Bucketsort
import CodingForFun.Stringproblems.Reversewords
import CodingForFun.Stringproblems.UniqueCharac
import CodingForFun.Reverseorderwords
import CodingForFun.Revertwords
import CodingForFun.Commonchar
import CodingForFun.Anagramsub
import CodingForFun.Liststringproblems.Anagramsubstring
import CodingForFun.Liststringproblems.Largestpalindrome
import CodingForFun.Interleaved
import CodingForFun.Longestcommonsubseq
import CodingForFun.Allpermutations
import CodingForFun.Recursionproblems
import CodingForFun.Subsets
import CodingForFun.Overlappingintervals
import CodingForFun.Coins
import CodingForFun.Binarytreecolumnwise
import CodingForFun.Islands
import CodingForFun.Pushzeros.Ordered
import CodingForFun.Pushzeros.Swapped
import CodingForFun.Reorder
import CodingForFun.Printdiamond
import CodingForFun.LcdDriver
import CodingForFun.BitwiseMacros.Counting
import CodingForFun.BitwiseMacros.Reversal
import CodingForFun.BitwiseMacros.Ranges
import CodingForFun.BitwiseMacros.Alignment
import CodingForFun.Coolmacros
import CodingForFun.CnnYolo
import CodingForFun.Assign4Optimization
import CodingForFun.Nvme.Queue
import CodingForFun.Nvme.System
import CodingForFun.Nvme.Invariant
import CodingForFun.Nvme.Handlers
import CodingForFun.Nvme.Runs
import CodingForFun.Nvme.Prps
import CodingForFun.Nvme.PrpLists
import CodingForFun.Nvme.Iod
import CodingForFun.Nvme.SubmitIo
import CodingForFun.Nvme.Controller
import CodingForFun.Nvme.Lifetimes
import CodingForFun.Nvme.Probe
import CodingForFun.Bf5xxNand
import CodingForFun.CafeNand
import CodingForFun.ArmAssembly.Maxlist
import CodingForFun.ArmAssembly.SumSubroutines
import CodingForFun.ArmAssembly.Comparestrings
import CodingForFun.ArmAssembly.Numbers
import CodingForFun.Mmap.Driver
import CodingForFun.Mmap.References
import CodingForFun.Mmap.Runs
import CodingForFun.Mmap.Sharing
import CodingForFun.Printoddseven
import CodingForFun.Islands.Counted
import CodingForFun.Bstproblems.Depths
import CodingForFun.Rtl8150
import CodingForFun.UsbMassStorage
import CodingForFun.Liststringproblems.Maxmatching
