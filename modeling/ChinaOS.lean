import ChinaOS.Types
import ChinaOS.Bit
import ChinaOS.Ring
import ChinaOS.Fifo
import ChinaOS.RingBuffer
import ChinaOS.Run
import ChinaOS.Mailbox
import ChinaOS.Pipe
import ChinaOS.List
import ChinaOS.Kernel
import ChinaOS.Ready
import ChinaOS.Newest
import ChinaOS.WaitQueue
import ChinaOS.Wakeup
import ChinaOS.PipeKernel
import ChinaOS.PipeWake
import ChinaOS.WaitForever
import ChinaOS.Conservation
import ChinaOS.Can
import ChinaOS.Posting
import ChinaOS.Ethernet
import ChinaOS.Transmit
import ChinaOS.Receive
import ChinaOS.Lock
import ChinaOS.Deadline
import ChinaOS.Ticker
import ChinaOS.Alarm
import ChinaOS.Expiry
import ChinaOS.TimerService
import ChinaOS.PathTree
import ChinaOS.Trie
import ChinaOS.Tiling
import ChinaOS.Malloc
import ChinaOS.BinIndex
import ChinaOS.Records
import ChinaOS.Group
import ChinaOS.Forest
import ChinaOS.InsertLarge
import ChinaOS.UnlinkLarge
import ChinaOS.BestFit
import ChinaOS.TreeBins
import ChinaOS.Bins
import ChinaOS.Boundary
import ChinaOS.Allocate
import ChinaOS.Release
import ChinaOS.HeapSetup
import ChinaOS.Walk
import ChinaOS.Overflow
import ChinaOS.Session
import ChinaOS.Construct
import ChinaOS.Registration
import ChinaOS.Console
import ChinaOS.Frame
import ChinaOS.Labour
import ChinaOS.Reap
import ChinaOS.ChangePriority
import ChinaOS.TimedKernel
import ChinaOS.Kill
import ChinaOS.Trace
import ChinaOS.Math
import ChinaOS.BitScan
import ChinaOS.LineEdit
import ChinaOS.Access
import ChinaOS.Typing
import ChinaOS.Visits
import ChinaOS.Dereference
import ChinaOS.Contents
import ChinaOS.FatVolume
import ChinaOS.FatTable
import ChinaOS.FatEntry
import ChinaOS.Links
import ChinaOS.FatChain
import ChinaOS.FatFiles
import ChinaOS.FatData
import ChinaOS.FatObject
import ChinaOS.OnesComplement
import ChinaOS.Checksum
import ChinaOS.Timeouts
import ChinaOS.FatRead
import ChinaOS.FatWrite
import ChinaOS.FatSeek
import ChinaOS.FatSession
import ChinaOS.FatTruncate
