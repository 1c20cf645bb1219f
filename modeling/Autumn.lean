import Autumn.Skiplist.Refines
import Autumn.Table.RoundTrip
import Autumn.StreamClient.LogBytes
import Autumn.StreamClient.LostSeals
import Autumn.Extent.Corrupt
import Autumn.Extent.Overlap
import Autumn.Extent.TornWrite
import Autumn.StreamManager.Coherence
import Autumn.Manager.Addresses
import Autumn.Manager.UniqID
import Autumn.Client.Routing
import Autumn.RangePartition.Answers
import Autumn.RangePartition.Duplicates
import Autumn.RangePartition.FlushQueue
import Autumn.RangePartition.GC
import Autumn.RangePartition.LostReads
import Autumn.RangePartition.Readers
import Autumn.RangePartition.ReplayedValues
import Autumn.RangePartition.RowStream
import Autumn.RangePartition.ScanAgrees
import Autumn.Lib.Regions
import Autumn.Skiplist.Allocation
import Autumn.Table.ShownPairs
import Autumn.RangePartition.Estimates
import Autumn.RangePartition.Admission
import Autumn.StreamManager.Policy
import Autumn.StreamManager.Truncate
import Autumn.Manager.PmClient
import Autumn.RangePartition.Discard
import Autumn.Manager.PmUpdates
import Autumn.Manager.Handlers
import Autumn.RangePartition.KeySizes
import Autumn.RangePartition.OnBytes
import Autumn.StreamClient.Contract
import Autumn.Table.ConcatIterator
