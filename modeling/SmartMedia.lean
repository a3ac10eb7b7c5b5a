import SmartMedia.Library.PartialRun
import SmartMedia.Platform.TaskWorker
import SmartMedia.Platform.TaskSystem
import SmartMedia.Platform.Cancellation
import SmartMedia.Platform.Release
import SmartMedia.Platform.Leases
import SmartMedia.Platform.RetryBudget
import SmartMedia.Library.FileMap
import SmartMedia.Media.Paths
import SmartMedia.Library.StateProgram
import SmartMedia.Media.Files
import SmartMedia.Media.Rename
import SmartMedia.Media.Contents
import SmartMedia.Media.Rollback
import SmartMedia.Media.SmartRollback
import SmartMedia.WriteQueue.Session
import SmartMedia.WriteQueue.Queue
import SmartMedia.WriteQueue.Evolution
import SmartMedia.WriteQueue.Retry
import SmartMedia.WriteQueue.Outcomes
import SmartMedia.Library.Reorder
import SmartMedia.WriteQueue.Drain
import SmartMedia.WriteQueue.MergeCache
import SmartMedia.WriteQueue.Shutdown
import SmartMedia.Platform.Completion
import SmartMedia.Platform.Interruption
import SmartMedia.Media.FailedRows
import SmartMedia.Media.RolledBack
import SmartMedia.Media.ScrapeJob
import SmartMedia.Media.ScrapeTransitions
import SmartMedia.Media.StrmGenerator
import SmartMedia.Media.StrmValidator
import SmartMedia.Media.StrmAgreement
import SmartMedia.Cache.LRUCache
import SmartMedia.Cache.CacheManager
import SmartMedia.Cache.Invalidation
import SmartMedia.WriteQueue.RowOrder
import SmartMedia.WriteQueue.DrainOrder
import SmartMedia.WriteQueue.Merging
import SmartMedia.WriteQueue.MergedRun
import SmartMedia.Cron.CronService
import SmartMedia.Cron.Processor
import SmartMedia.Cache.Layers
import SmartMedia.Cache.TieredCache
import SmartMedia.Cache.Resurrection
import SmartMedia.Cache.Freshness
import SmartMedia.Media.Containment
import SmartMedia.Media.QuarkService
import SmartMedia.Media.StrmOutput
import SmartMedia.Scrape.Accounting
import SmartMedia.Scrape.JobService
import SmartMedia.Scrape.StartStop
import SmartMedia.Scrape.JobLimit
import SmartMedia.Scrape.ScrapePaths
import SmartMedia.Scrape.PathJobs
import SmartMedia.Auth.Login
import SmartMedia.Auth.Lockout
import SmartMedia.Migrations.ExactlyOnce
import SmartMedia.RateLimit.RateLimiter
import SmartMedia.RateLimit.Window
import SmartMedia.Config.ConfigService
import SmartMedia.Config.Masking
import SmartMedia.Config.RoundTrip
import SmartMedia.Config.ListEdits
import SmartMedia.Library.PercentEncoding
import SmartMedia.Strm.StrmUrl
import SmartMedia.Strm.ProxyUrl
import SmartMedia.Strm.StableUrl
import SmartMedia.Cache.CacheService
import SmartMedia.Cache.Agreement
import SmartMedia.Cache.Namespaces
import SmartMedia.Cache.GetOrSet
import SmartMedia.Cache.Respected
import SmartMedia.Library.PythonText
import SmartMedia.Mapping.MediaMappingService
import SmartMedia.Mapping.MediaIds
import SmartMedia.Mapping.OneToOne
import SmartMedia.Emby.PlanRuns
import SmartMedia.Scrape.CronAgreement
import SmartMedia.Media.QuarkListing
import SmartMedia.Media.PathLookups
import SmartMedia.Media.AbsolutePaths
import SmartMedia.Media.PathContainment
import SmartMedia.Emby.DeletePlan
import SmartMedia.Scrape.PathCron
import SmartMedia.Media.RemoteTree
import SmartMedia.Media.RemotePaths
import SmartMedia.Strm.WebdavUrl
import SmartMedia.Strm.WebdavScan
import SmartMedia.Strm.WebdavTargets
import SmartMedia.Library.FileTree
import SmartMedia.Storage.Posix
import SmartMedia.Storage.LocalStorage
import SmartMedia.Storage.Calls
import SmartMedia.Storage.Copying
import SmartMedia.Storage.Moves
import SmartMedia.Storage.Runs
import SmartMedia.Storage.Confinement
import SmartMedia.Storage.Lossless
import SmartMedia.Library.PythonRegex
import SmartMedia.Media.MediaParser
import SmartMedia.Media.EmbyNaming
import SmartMedia.Media.Titles
import SmartMedia.Media.ParseBack
import SmartMedia.Media.VideoScan
import SmartMedia.Library.StableSort
import SmartMedia.Search.SearchService
import SmartMedia.Search.FilteredPages
import SmartMedia.Emby.WebhookLog
import SmartMedia.Emby.Aggregation
import SmartMedia.Config.SensitiveWords
import SmartMedia.Config.Redaction
import SmartMedia.Media.ExpectedSet
import SmartMedia.Library.IpAddress
import SmartMedia.Urls.Netloc
import SmartMedia.Urls.SplitUrl
import SmartMedia.Urls.UrlValidator
import SmartMedia.Library.Parts
import SmartMedia.Urls.NumericHosts
import SmartMedia.Urls.PrivateHosts
import SmartMedia.Emby.GatewayLocation
import SmartMedia.RateLimit.RetryAfter
import SmartMedia.Library.GapRuns
import SmartMedia.Playback.RouteHealth
import SmartMedia.Playback.StickyDowngrade
import SmartMedia.Library.Calendar
import SmartMedia.Scheduler.TaskScheduler
import SmartMedia.Scheduler.NextRun
import SmartMedia.Library.DepthSearch
import SmartMedia.Search.ShareSize
import SmartMedia.Search.WholeShares
import SmartMedia.Search.SizeFilter
import SmartMedia.Playback.FirstSegmentCache
import SmartMedia.Playback.FirstSegments
import SmartMedia.Media.SmartNames
import SmartMedia.Media.Organize
import SmartMedia.Media.StrmAccounting
import SmartMedia.Storage.PathSecurity
import SmartMedia.Storage.CheckedPaths
import SmartMedia.Scrape.CategoryStrategy
import SmartMedia.Scrape.CategoryPreview
import SmartMedia.Storage.SafeCalls
import SmartMedia.Storage.CallEffects
import SmartMedia.Scrape.OrganizeItem
import SmartMedia.Scrape.CleanFailure
import SmartMedia.Scrape.OrganizedPaths
import SmartMedia.RateLimit.Cleanup
import SmartMedia.Library.Blend
import SmartMedia.Search.ScoringEngine
import SmartMedia.Search.SortedPages
import SmartMedia.Emby.TranscodingUrl
import SmartMedia.Cache.Recency
import SmartMedia.Cache.MultiLevel
import SmartMedia.Library.Trim
import SmartMedia.Mapping.CanonicalPaths
import SmartMedia.Library.Xml
import SmartMedia.Scrape.Nfo
import SmartMedia.Library.SlidingWindow
import SmartMedia.Library.ExpiringMap
import SmartMedia.Scheduler.Overlap
import SmartMedia.RateLimit.TMDBRateLimiter
import SmartMedia.Cache.DiskBatch
import SmartMedia.Playback.LinkCache
import SmartMedia.Playback.LinkResolver
import SmartMedia.Migrations.Backup
import SmartMedia.Migrations.LiveDatabase
import SmartMedia.Auth.AuthMiddleware
import SmartMedia.Auth.Accounts
import SmartMedia.Auth.Sessions
import SmartMedia.Workflow.CloudWorkflow
import SmartMedia.Workflow.WorkflowRuns
import SmartMedia.Emby.LibrarySync
import SmartMedia.Emby.SyncRuns
import SmartMedia.Library.Base64
import SmartMedia.Library.Json
import SmartMedia.Config.Encryption
