import Nyuka.Foundation.Runs
import Nyuka.Foundation.Directories
import Nyuka.Foundation.Batches
import Nyuka.Foundation.Tables
import Nyuka.Foundation.Cascade
import Nyuka.Foundation.Paging
import Nyuka.Foundation.HttpCaches
import Nyuka.Foundation.Readings
import Nyuka.Foundation.Lines
import Nyuka.Foundation.Octets
import Nyuka.Foundation.NearestRank
import Nyuka.Foundation.LikePatterns
import Nyuka.Foundation.Text
import Nyuka.Foundation.Utf8
import Nyuka.Foundation.Varints
import Nyuka.Foundation.Codecs
import Nyuka.Foundation.Parameters
import Nyuka.Foundation.Urls
import Nyuka.Foundation.UnicodePatterns
import Nyuka.Foundation.Xml
import Nyuka.Foundation.Decimals
import Nyuka.Foundation.Results
import Nyuka.Foundation.FileTree
import Nyuka.Foundation.Floats
import Nyuka.Foundation.Binary32
import Nyuka.Foundation.Binary64
import Nyuka.Domain.Model
import Nyuka.Domain.Library
import Nyuka.Domain.Sources
import Nyuka.Persistence.Schema
import Nyuka.Persistence.Removal
import Nyuka.Persistence.Sources
import Nyuka.Persistence.Chapters
import Nyuka.Persistence.Upserts
import Nyuka.Persistence.Catalogue
import Nyuka.Persistence.Library
import Nyuka.Persistence.Listings
import Nyuka.Persistence.Search
import Nyuka.Runtime.Pages
import Nyuka.Runtime.Egress
import Nyuka.Runtime.Addresses
import Nyuka.Runtime.Literals
import Nyuka.Runtime.Net
import Nyuka.Runtime.Resources
import Nyuka.Runtime.Handles
import Nyuka.Runtime.Blocks
import Nyuka.Runtime.SendAll
import Nyuka.Runtime.Html
import Nyuka.Runtime.Imports
import Nyuka.Runtime.Guests
import Nyuka.Runtime.Transfers
import Nyuka.Runtime.Replays
import Nyuka.Runtime.Defaults
import Nyuka.Runtime.DatePatterns
import Nyuka.Runtime.Dates
import Nyuka.Runtime.Package
import Nyuka.Runtime.Settings
import Nyuka.Runtime.Filters
import Nyuka.Runtime.Wire
import Nyuka.Runtime.Calls
import Nyuka.Runtime.Registry
import Nyuka.Runtime.Install
import Nyuka.Runtime.InstallEntry
import Nyuka.Runtime.Restart
import Nyuka.Runtime.PackageFiles
import Nyuka.Runtime.Refresh
import Nyuka.Packaging.Paths
import Nyuka.Packaging.Containment
import Nyuka.Packaging.Numbers
import Nyuka.Packaging.Names
import Nyuka.Packaging.Components
import Nyuka.Packaging.FileNames
import Nyuka.Packaging.FileOrder
import Nyuka.Packaging.Cbz
import Nyuka.Packaging.Metadata
import Nyuka.Packaging.Schema
import Nyuka.Packaging.Store
import Nyuka.Packaging.Packages
import Nyuka.Packaging.Placement
import Nyuka.Packaging.Adapter
import Nyuka.Jobs.Queue
import Nyuka.Jobs.Summaries
import Nyuka.Jobs.Producers
import Nyuka.Jobs.Engine
import Nyuka.Jobs.Steps
import Nyuka.Jobs.Lease
import Nyuka.Jobs.Terminal
import Nyuka.Jobs.Budget
import Nyuka.Jobs.Keys
import Nyuka.Jobs.Downloads
import Nyuka.Jobs.Reconcile
import Nyuka.Jobs.Pass
import Nyuka.Jobs.Scheduler
import Nyuka.Jobs.Sweep
import Nyuka.Jobs.AutoDownload
import Nyuka.Jobs.DownloadChapter
import Nyuka.Jobs.Periods
import Nyuka.Jobs.Limiter
import Nyuka.Jobs.RateLimits
import Nyuka.Jobs.Drain
import Nyuka.Jobs.Pool
import Nyuka.Jobs.Reports
import Nyuka.Jobs.Metrics
import Nyuka.Jobs.Outcomes
import Nyuka.Jobs.UpdateSources
import Nyuka.Api.Problem
import Nyuka.Api.Answers
import Nyuka.Api.Downloads
import Nyuka.Api.Triggers
import Nyuka.Api.Retry
import Nyuka.Api.Files
import Nyuka.Api.Ranges
import Nyuka.Api.StaticFiles
import Nyuka.Api.Catalog
import Nyuka.Api.Disposition
import Nyuka.Api.Library
import Nyuka.Api.Removal
import Nyuka.Api.Settings
import Nyuka.Api.Defaults
import Nyuka.Api.Telemetry
import Nyuka.Api.Redaction
import Nyuka.Api.Otlp
import Nyuka.Api.ClientIp
import Nyuka.Api.Config
import Nyuka.Api.Networks
import Nyuka.Api.Lifetimes
import Nyuka.Api.Directories
import Nyuka.Web.Progress
import Nyuka.Web.Live
import Nyuka.Web.Postcard
import Nyuka.Web.RoundTrips
import Nyuka.Web.Settings
import Nyuka.Web.Seeds
import Nyuka.Web.Filters
import Nyuka.Web.FilterState
import Nyuka.Web.FilterReload
import Nyuka.Web.Choices
import Nyuka.Auth.Sessions
import Nyuka.Auth.Routes
import Nyuka.Auth.Steps
import Nyuka.Auth.Logout
import Nyuka.Auth.Flows
import Nyuka.Auth.SignIn
import Nyuka.Auth.ReturnTo
