import Xfs.Alloc.SpaceRuns
import Xfs.Attr.ShortFormRuns
import Xfs.Bmap.ExtsizeAlign
import Xfs.Btree.BloadExact
import Xfs.Btree.HasRecordsExact
import Xfs.Btree.Height
import Xfs.Btree.QueryExact
import Xfs.Db.BitField
import Xfs.Db.MetadumpRuns
import Xfs.Defer.CrashSafe
import Xfs.Dir.DataRuns
import Xfs.Dir.LeafnToosmall
import Xfs.Dir.ShortFormRuns
import Xfs.Exchmaps.Overhead
import Xfs.Frog.BitmapRuns
import Xfs.Frog.Cvtnum
import Xfs.Ialloc.Near
import Xfs.Log.FindHead
import Xfs.Refcount.CowAdjustSpec
import Xfs.Refcount.FindShared
import Xfs.Refcount.Queue
import Xfs.Repair.DupExtents
import Xfs.Repair.RefcountExact
import Xfs.Repair.UpdateKey
import Xfs.Rmap.CountOwners
import Xfs.Rmap.LookupRange
import Xfs.Rmap.SharedExact
import Xfs.Rtbitmap.Generate
import Xfs.Rtbitmap.Query
