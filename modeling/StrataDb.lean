import StrataDb.JournalCrash
import StrataDb.ManifestCrash
import StrataDb.WellScoped
import StrataDb.HashJoin
import StrataDb.LsmOrphans
import StrataDb.SsTableVersions
import StrataDb.ArrayKeys
import StrataDb.CastTypes
import StrataDb.CompareOrder
import StrataDb.Like
import StrataDb.TextCasts
import StrataDb.CatalogDrop
import StrataDb.StoredDefault
import StrataDb.BlockAllocation
import StrataDb.Lowering
import StrataDb.PageLeaks
import StrataDb.Sink
import StrataDb.Substring
import StrataDb.TableIsolation
import StrataDb.TuplePageRuns
import StrataDb.EngineCrash
import StrataDb.EvictionRuns
import StrataDb.MemoCache
import StrataDb.MemoryPool
import StrataDb.TextPage
import StrataDb.WorkspaceRuns
import StrataDb.PageCacheCrash
import StrataDb.FilterLaws
