import Sourcegraph.ArchiveIndex
import Sourcegraph.CommitAuthors
import Sourcegraph.CommitHighlights
import Sourcegraph.CommitReduction
import Sourcegraph.ConnectionPaging
import Sourcegraph.DiffRoundTrip
import Sourcegraph.DiskCache
import Sourcegraph.FifoList
import Sourcegraph.HybridSearch
import Sourcegraph.IndexAgreement
import Sourcegraph.IndexRebalancing
import Sourcegraph.Interning
import Sourcegraph.LimitStream
import Sourcegraph.LimitedStream
import Sourcegraph.LineColumns
import Sourcegraph.MigrationConcurrency
import Sourcegraph.MigrationDominators
import Sourcegraph.OobDowngrade
import Sourcegraph.Overridable
import Sourcegraph.PackageNames
import Sourcegraph.ParserPool
import Sourcegraph.QueryConcatMeaning
import Sourcegraph.QueryFieldCase
import Sourcegraph.QueryPanics
import Sourcegraph.QueryProgress
import Sourcegraph.ReorderQueue
import Sourcegraph.RepoFileContent
import Sourcegraph.ResultMerger
import Sourcegraph.ResultSetChains
import Sourcegraph.RevisionFilters
import Sourcegraph.SanitizedResults
import Sourcegraph.SchedulerWakeups
import Sourcegraph.SearchFilters
import Sourcegraph.SearchableFilter
import Sourcegraph.SettingsSubjects
import Sourcegraph.SyncDeletion
import Sourcegraph.WorkerHandlers
