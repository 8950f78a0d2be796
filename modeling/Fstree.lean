import Fstree.Foundations.SortedBy
import Fstree.Foundations.TwoCursor
import Fstree.Foundations.Codec
import Fstree.Foundations.Transition
import Fstree.Foundations.Orphans
import Fstree.Foundations.DeepPath
import Fstree.Model.Path
import Fstree.Model.Digest
import Fstree.Model.Inode
import Fstree.Model.IndexFile
import Fstree.Model.Disk
import Fstree.Model.Store
import Fstree.DigestPaths
import Fstree.Scan
import Fstree.Index
import Fstree.Refresh
import Fstree.Add
import Fstree.Copies
import Fstree.ReadTree
import Fstree.Truthful
import Fstree.Reuse
import Fstree.WriteTree
import Fstree.IgnoreChange
import Fstree.Merge
import Fstree.Crash
import Fstree.MergeTree
import Fstree.Checkout
import Fstree.Confine
import Fstree.Contents
import Fstree.Evict
import Fstree.Formats
import Fstree.Foundations.BinarySearch
import Fstree.Foundations.LevelOrder
import Fstree.Foundations.Regex
import Fstree.Foundations.Wildcard
import Fstree.Foundations.Json
import Fstree.Foundations.Sha1
import Fstree.GlobList
import Fstree.GlobLimits
import Fstree.GlobSegment
import Fstree.IndexGlob
import Fstree.IndexHeap
import Fstree.LockFile
import Fstree.ListOrder
import Fstree.PullComplete
import Fstree.Push
import Fstree.PushComplete
import Fstree.ScanRun
import Fstree.Simple
import Fstree.RoundTrip
import Fstree.Permission
import Fstree.ReadOnlyDirs
import Fstree.Agree
import Fstree.Outlive
import Fstree.Overlay
import Fstree.RefreshRule
import Fstree.GlobTree
import Fstree.GlobIgnored
import Fstree.EvictRun
import Fstree.EvictRace
import Fstree.CopyMetadata
import Fstree.ParseSize
import Fstree.ArgParser
import Fstree.Event
import Fstree.HashSha1
import Fstree.IndexTree
import Fstree.PushEnds
import Fstree.Transfer
import Fstree.ReadBack
import Fstree.Records
import Fstree.Restore
import Fstree.Session
import Fstree.Crowd
import Fstree.Fetch
import Fstree.OnPool
import Fstree.CommandLine
import Fstree.MergeAll
import Fstree.MergeOrder
import Fstree.MergedTrees
import Fstree.HandleGlob
