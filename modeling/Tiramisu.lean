import Tiramisu.Library.ConcurrentRequests
import Tiramisu.Library.ForeignFiles
import Tiramisu.Library.Rollback
import Tiramisu.Vfs.BaseNames
import Tiramisu.Vfs.Persistence
import Tiramisu.Vfs.DirtyFlag
import Tiramisu.Vfs.DirCache
import Tiramisu.Vfs.MetaCache
import Tiramisu.Library.SourceResolve
import Tiramisu.ReadAhead.Coverage
import Tiramisu.Native.FetchAhead
import Tiramisu.Pump.Attachments
import Tiramisu.Pump.Slots
import Tiramisu.Warmup.Quota
import Tiramisu.Warmup.Races
import Tiramisu.Audio.CueSplit
import Tiramisu.Syncer.Seasons
import Tiramisu.Library.AudioList
import Tiramisu.Library.Waiters
import Tiramisu.Library.Refresh
import Tiramisu.Library.Locks
import Tiramisu.Torrstor.Evict
import Tiramisu.Torrstor.Shield
import Tiramisu.Cache.Expiry
import Tiramisu.Torrent.FileIds
import Tiramisu.Pump.Grid
import Tiramisu.Vfs.Segment
import Tiramisu.MusicImport.CueMatching
import Tiramisu.MusicImport.Featuring
import Tiramisu.MusicImport.Select
