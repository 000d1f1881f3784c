import Archinix.Util.ArchiveRoundTrip
import Archinix.Util.Signals
import Archinix.Util.ThreadPoolRuns
import Archinix.Util.SourceToSinkRestart
import Archinix.Store.PathLocks
import Archinix.Store.CollectGarbageAllOrThrow
import Archinix.Nixgen.NoChange
import Archinix.Store.VerifyStore
import Archinix.Store.MakeStorePath
import Archinix.Util.SkipContents
import Archinix.Store.StoreResolve
import Archinix.Store.DedupSwapPoolRuns
import Archinix.Store.ImportBesideCollector
import Archinix.Store.ExportImport
import Archinix.Store.RegisteredIntact
import Archinix.Host.Changes
import Archinix.Store.OptimiseContents
import Archinix.Store.RestoreSink
import Archinix.Nixgen.StatePaths
import Archinix.Util.HashTextCanonical
import Archinix.Store.LockWrappers
import Archinix.Nixgen.Entries
import Archinix.Nixgen.SeedState
import Archinix.Nixgen.ResolveGeneration
import Archinix.Store.ToStorePath
import Archinix.Store.DeletePathRemoves
import Archinix.Util.CanonPathOrder
import Archinix.Util.Base64
import Archinix.Util.BaseNix32
import Archinix.Nixgen.RestoreCaps
import Archinix.Util.FdSource
import Archinix.Util.CanonPathSymlinks
import Archinix.Host.DirectoryAccessorRuns
import Archinix.Util.LRUCacheRecency
import Archinix.Util.InterruptCallbacksPass
import Archinix.Util.RestoreBuffers
