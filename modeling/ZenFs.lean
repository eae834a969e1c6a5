import ZenFs.Namespace.AllOrNothing
import ZenFs.Locks.Persisting
import ZenFs.Device.LiveRuns
import ZenFs.Namespace.Sections
import ZenFs.Device.ExclusiveRuns
import ZenFs.Tectonic.RangeDeletes
import ZenFs.Tectonic.Ranges
import ZenFs.Tectonic.Counts
import ZenFs.Tectonic.Scaling
import ZenFs.Tectonic.RunWorkload
import ZenFs.Device.Shares
import ZenFs.Filenames.Named
import ZenFs.Device.Sorted
import ZenFs.Recover.FullZones
import ZenFs.Namespace.FailedMigration
import ZenFs.Device.Reserve
import ZenFs.Writer.Retry
import ZenFs.Rolling.Torn
import ZenFs.Syncs.Races
import ZenFs.Syncs.Recovered
import ZenFs.Device.Caza
import ZenFs.Device.ClosestRank
import ZenFs.Device.OneExtent
import ZenFs.Device.Migration
import ZenFs.Device.Indexing
import ZenFs.Device.Divisors
import ZenFs.Device.Handover
import ZenFs.Device.Deferred
import ZenFs.Device.EmptyZones
import ZenFs.Device.ColdFiles
import ZenFs.MetaLog.ShortReads
