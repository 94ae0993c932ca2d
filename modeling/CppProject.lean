import CppProject.Library.Records
import CppProject.Library.Placement
import CppProject.Library.Powers
import CppProject.Library.PrefixSums
import CppProject.Library.Chains
import CppProject.Library.Checked
import CppProject.Library.Loop
import CppProject.Library.Mixing
import CppProject.Library.Items
import CppProject.Library.Overlay
import CppProject.Library.Runs
import CppProject.Library.Rounds
import CppProject.Library.Text
import CppProject.Library.Streams
import CppProject.Library.Expressions
import CppProject.Library.Borders
import CppProject.Library.Positional
import CppProject.Library.Ranges
import CppProject.Library.LinkedLists
import CppProject.Library.UnorderedMaps
import CppProject.Library.Readers
import CppProject.Library.Wire
import CppProject.Library.BinaryProtocol
import CppProject.Library.Calls
import CppProject.Library.Totals
import CppProject.Library.Memory
import CppProject.Cannon.ImmutableHashMap
import CppProject.Cannon.Construction
import CppProject.Cannon.Loading
import CppProject.Cannon.Lookup
import CppProject.Cannon.BytesHash
import CppProject.Cannon.HashLoads
import CppProject.Cannon.Murmur2
import CppProject.Cannon.Reloading
import CppProject.Cannon.History
import CppProject.Cannon.PlacementRounds
import CppProject.Cannon.PartialRecords
import CppProject.Cannon.KVSchema
import CppProject.Cannon.TypeGrammar
import CppProject.Cannon.CannonServer
import CppProject.Cannon.Requests
import CppProject.Cannon.SchemaSizes
import CppProject.Cannon.Storage
import CppProject.Cannon.Interface
import CppProject.Cannon.Calls
import CppProject.Cannon.Server
import CppProject.HashTable.Basic
import CppProject.HashTable.InternalStorage
import CppProject.HashTable.Chained
import CppProject.HashTable.LoadFactor
import CppProject.HashTable.Growth
import CppProject.HashTable.Agreement
import CppProject.HashTable.Pointers
import CppProject.HashTable.Relinking
import CppProject.HashTable.Allocation
import CppProject.HashTable.Lifetime
import CppProject.KMP.Source
import CppProject.KMP.FailureTable
import CppProject.KMP.Search
import CppProject.KMP.Costs
import CppProject.SimpleRexMatch.Source
import CppProject.SimpleRexMatch.Construction
import CppProject.SimpleRexMatch.Matching
import CppProject.SimpleRexMatch.Points
import CppProject.SimpleRexMatch.Costs
import CppProject.ReversePolishExpression.Source
import CppProject.ReversePolishExpression.Splitting
import CppProject.ReversePolishExpression.Translation
import CppProject.ReversePolishExpression.Evaluation
import CppProject.ReversePolishExpression.Soundness
import CppProject.ReversePolishExpression.Malformed
import CppProject.ReversePolishExpression.Regrouping
import CppProject.StringMultiplication.Source
import CppProject.StringMultiplication.Rows
import CppProject.StringMultiplication.Product
import CppProject.QSort.Source
import CppProject.QSort.Partition
import CppProject.QSort.Sorting
import CppProject.QSort.Pivots
import CppProject.QSort.Costs
import CppProject.MergeSortedLists.Source
import CppProject.MergeSortedLists.Merge
import CppProject.MergeSortedLists.Lifecycle
import CppProject.LrSgd.Source
import CppProject.LrSgd.Batches
import CppProject.LrSgd.Scores
import CppProject.LrSgd.Penalty
import CppProject.LrSgd.TrainingData
import CppProject.LrSgd.Training
import CppProject.LrSgd.Gradient
import CppProject.LrSgd.TrainedWeights
import CppProject.CannonProxy.Storage
import CppProject.CannonProxy.ProxyServer
import CppProject.CannonProxy.Sharding
import CppProject.CannonProxy.Reloading
import CppProject.CannonProxy.Positions
import CppProject.CannonProxy.Answers
import CppProject.CannonProxy.ReloadLock
import CppProject.CannonProxy.FailedReloads
import CppProject.CannonProxy.Histories
import CppProject.CannonProxy.CannonClientWrapper
import CppProject.CannonProxy.Interleaving
import CppProject.CannonProxy.Uninterrupted
import CppProject.CannonProxy.Snapshots
import CppProject.CannonProxy.Interface
import CppProject.CannonProxy.Connection
import CppProject.CannonProxy.WireServers
import CppProject.Threads.Source
import CppProject.Threads.Workers
import CppProject.Threads.Completion
import CppProject.CannonProxy.WorkerThreads
import CppProject.CannonProxy.ModelFilesReader
import CppProject.CannonProxy.Blocks
import CppProject.CannonProxy.ModelPairs
import CppProject.CannonProxy.Service
import CppProject.CannonProxy.Sessions
