import BlogAlgorithms.Java.Comparator
import BlogAlgorithms.Java.KeyOrder
import BlogAlgorithms.Java.Exec
import BlogAlgorithms.Java.Arithmetic
import BlogAlgorithms.Java.Array
import BlogAlgorithms.Java.Loop
import BlogAlgorithms.Java.Range
import BlogAlgorithms.Java.Reach
import BlogAlgorithms.Java.IntLoop
import BlogAlgorithms.Java.Double
import BlogAlgorithms.C.Exec
import BlogAlgorithms.C.Memory
import BlogAlgorithms.Lib.Walk
import BlogAlgorithms.Lib.BreadthFirst
import BlogAlgorithms.Lib.Decimal
import BlogAlgorithms.Lib.DepthFirst
import BlogAlgorithms.Lib.DrawTree
import BlogAlgorithms.Lib.DrawGrowth
import BlogAlgorithms.Lib.IntInterval
import BlogAlgorithms.Lib.Lexicographic
import BlogAlgorithms.Lib.Palindrome
import BlogAlgorithms.Lib.PalindromeProduct
import BlogAlgorithms.Lib.Reservoir
import BlogAlgorithms.Lib.StableSort
import BlogAlgorithms.Lib.Strand
import BlogAlgorithms.Lib.Trails
import BlogAlgorithms.Lib.Buckets
import BlogAlgorithms.Lib.ReverseCounter
import BlogAlgorithms.Lib.LittleEndian
import BlogAlgorithms.Lib.Ring
import BlogAlgorithms.Lib.DrawLeaves
import BlogAlgorithms.Graph.Model
import BlogAlgorithms.Graph.Build
import BlogAlgorithms.Graph.Calls
import BlogAlgorithms.Graph.Construction
import BlogAlgorithms.Graph.Search
import BlogAlgorithms.Graph.Bfs
import BlogAlgorithms.Graph.Dfs
import BlogAlgorithms.Graph.ShortestPath
import BlogAlgorithms.Graph.PathTo
import BlogAlgorithms.Search.BinarySearch
import BlogAlgorithms.Sort.Heapify
import BlogAlgorithms.Sort.HeapSubtree
import BlogAlgorithms.Sort.HeapSort
import BlogAlgorithms.Sort.HeapIndices
import BlogAlgorithms.Sort.InsertSort
import BlogAlgorithms.Sort.MergeSort
import BlogAlgorithms.Sort.Partition
import BlogAlgorithms.Sort.PartitionLoop
import BlogAlgorithms.Sort.QuickSort
import BlogAlgorithms.Sort.SelectSort
import BlogAlgorithms.Sort.AnyOrder
import BlogAlgorithms.Sort.MergeDepth
import BlogAlgorithms.Sort.ShellPass
import BlogAlgorithms.Sort.ShellSort
import BlogAlgorithms.Sort.StableSorts
import BlogAlgorithms.Sort.IsSorted
import BlogAlgorithms.Sort.MidpointMergeSort
import BlogAlgorithms.Sort.RandomQuickSort
import BlogAlgorithms.Tree.BinaryTree
import BlogAlgorithms.Tree.SearchTree
import BlogAlgorithms.Tree.Construct
import BlogAlgorithms.Tree.InsertRuns
import BlogAlgorithms.Tree.Traversals
import BlogAlgorithms.Tree.NoRecursion
import BlogAlgorithms.Tree.Rebuild
import BlogAlgorithms.Leetcode.AlienDictionary
import BlogAlgorithms.Leetcode.BinaryGap
import BlogAlgorithms.Leetcode.FindMissingObservations
import BlogAlgorithms.Leetcode.FindTheWinner
import BlogAlgorithms.Leetcode.LargestPalindrome
import BlogAlgorithms.Leetcode.LexicalOrder
import BlogAlgorithms.Leetcode.LexicalOrderInt
import BlogAlgorithms.Leetcode.MaxConsecutive
import BlogAlgorithms.Leetcode.MergeIntervals
import BlogAlgorithms.Leetcode.New21Game
import BlogAlgorithms.Leetcode.RandomSampling
import BlogAlgorithms.Leetcode.RandomizedSet
import BlogAlgorithms.Leetcode.ReconstructQueue
import BlogAlgorithms.Leetcode.SortOrders
import BlogAlgorithms.Leetcode.SmallestRange
import BlogAlgorithms.Leetcode.New21GameCalls
import BlogAlgorithms.Redis.Dict
import BlogAlgorithms.Redis.DictTable
import BlogAlgorithms.Redis.DictRehash
import BlogAlgorithms.Redis.DictInsert
import BlogAlgorithms.Redis.DictMap
import BlogAlgorithms.Redis.DictRuns
import BlogAlgorithms.Redis.DictScan
import BlogAlgorithms.Redis.DictScanCall
import BlogAlgorithms.Redis.DictScanRuns
import BlogAlgorithms.Redis.DictLoad
import BlogAlgorithms.Redis.ClusterVote
import BlogAlgorithms.Redis.ClusterElection
import BlogAlgorithms.Redis.ClusterWinner
import BlogAlgorithms.Redis.Intset
import BlogAlgorithms.Redis.IntsetRecords
import BlogAlgorithms.Redis.IntsetSearch
import BlogAlgorithms.Redis.IntsetUpdate
import BlogAlgorithms.Redis.IntsetRuns
import BlogAlgorithms.Redis.IntsetBlob
import BlogAlgorithms.Redis.ReplBacklog
import BlogAlgorithms.Redis.Psync
import BlogAlgorithms.Redis.PsyncStories
import BlogAlgorithms.Redis.PsyncSteps
import BlogAlgorithms.Redis.PsyncActions
import BlogAlgorithms.Redis.PsyncSync
import BlogAlgorithms.Redis.PsyncRuns
