import CsPrimer.BasicHashmap.Capacity
import CsPrimer.BasicHashmap.Coverage
import CsPrimer.BasicHashmap.FiniteMap
import CsPrimer.BasicHashmap.GrowthPath
import CsPrimer.BasicHashmap.HeapSafety
import CsPrimer.BasicHashmap.PowerOfTwo
import CsPrimer.BasicShell.CommandName
import CsPrimer.BasicShell.KillTarget
import CsPrimer.BasicShell.ParseCmd
import CsPrimer.BasicShell.Reaping
import CsPrimer.BinaryConvert.BinaryConvert
import CsPrimer.DynamicArray.Amortized
import CsPrimer.DynamicArray.ManyArrays
import CsPrimer.FastPangram.Pangram
import CsPrimer.HeadacheShell.ParseCmd
import CsPrimer.LowLevelRecursion.Fib
import CsPrimer.MergeSort.Sorted
import CsPrimer.MultiThreadedFizzbuzz.Throughput
import CsPrimer.MultiThreadedMergesort.Affinity
import CsPrimer.MultiThreadedMergesort.Balance
import CsPrimer.MultiThreadedMergesort.Ranges
import CsPrimer.MultiThreadedMergesort.Sorted
import CsPrimer.OldAssembly.Factorial
import CsPrimer.RingBuffer.Fifo
import CsPrimer.RingBuffer.Interrupted
import CsPrimer.RingBuffer.Linearizable
import CsPrimer.RingBuffer.Progress
import CsPrimer.SharedMemoryStream.CrashSafety
import CsPrimer.SharedMemoryStream.Delivery
import CsPrimer.SharedMemoryStream.Handshake
import CsPrimer.SharedMemoryStream.Linearizable
import CsPrimer.SharedMemoryStream.Mapping
import CsPrimer.SharedMemoryStream.TokenLoss
import CsPrimer.ShellPipes.Argv
import CsPrimer.ShellPipes.InheritedEnds
import CsPrimer.ShellPipes.ProcessGroup
import CsPrimer.ShellPipes.Unwinding
import CsPrimer.ShoutServer.Listeners
import CsPrimer.ShoutServer.PeerShutdown
import CsPrimer.ShoutServer.PollResources
import CsPrimer.ShoutServer.QueueResources
import CsPrimer.ShoutServer.SendOffsets
import CsPrimer.SignalLogger.FaultLoop
import CsPrimer.SignalLogger.Totals
import CsPrimer.SumToN.SumToN
import CsPrimer.ThreadedCounter.Counter
import CsPrimer.X86Pangram.Pangram
