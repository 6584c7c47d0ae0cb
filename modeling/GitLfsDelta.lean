import GitLfsDelta.Core.LTS
import GitLfsDelta.Core.Clients
import GitLfsDelta.Core.Callers
import GitLfsDelta.Core.Projection
import GitLfsDelta.Core.Semaphore
import GitLfsDelta.Core.Noninterference
import GitLfsDelta.Core.Json
import GitLfsDelta.Core.RowLocks
import GitLfsDelta.Core.Table
import GitLfsDelta.Core.Restriction
import GitLfsDelta.Core.Text
import GitLfsDelta.Core.Percent
import GitLfsDelta.Core.Paging
import GitLfsDelta.Core.UrlPath
import GitLfsDelta.Core.Router
import GitLfsDelta.L1Data.Manifest
import GitLfsDelta.L1Data.ChunkStream
import GitLfsDelta.L1Data.WellFormed
import GitLfsDelta.L1Data.Streaming
import GitLfsDelta.L2Storage.ChunkStore
import GitLfsDelta.L2Storage.Provider
import GitLfsDelta.L2Storage.Schema
import GitLfsDelta.L3Server.Uploads
import GitLfsDelta.L3Server.Collection
import GitLfsDelta.L3Server.Frames
import GitLfsDelta.L3Server.RefCounts
import GitLfsDelta.L3Server.Removal
import GitLfsDelta.L3Server.Success
import GitLfsDelta.L3Server.Authentication
import GitLfsDelta.L3Server.AuthorizationKeys
import GitLfsDelta.L3Server.Locks
import GitLfsDelta.L3Server.LockPages
import GitLfsDelta.L3Server.Git
import GitLfsDelta.L3Server.Reconcile
import GitLfsDelta.L3Server.Pointers
import GitLfsDelta.L3Server.ScanPaths
import GitLfsDelta.L3Server.Downloads
import GitLfsDelta.L3Server.Isolation
import GitLfsDelta.L3Server.SchemaGate
import GitLfsDelta.L3Server.ForgejoUrls
import GitLfsDelta.L3Server.Digests
import GitLfsDelta.L3Server.Routes
import GitLfsDelta.L3Server.Wire
import GitLfsDelta.L3Server.BodyLimit
import GitLfsDelta.L4System.Server
import GitLfsDelta.L4System.Turns
import GitLfsDelta.L4System.Invariant
import GitLfsDelta.L4System.Evidence
import GitLfsDelta.L4System.Snapshots
import GitLfsDelta.L4System.Drain
import GitLfsDelta.L4System.Reclamation
import GitLfsDelta.L4System.Registration
import GitLfsDelta.L4System.Publication
import GitLfsDelta.L4System.Sessions
import GitLfsDelta.L4System.Tracking
import GitLfsDelta.L4System.Locking
import GitLfsDelta.L4System.LockPaths
import GitLfsDelta.L4System.AuthorizationCache
import GitLfsDelta.L4System.Remembering
import GitLfsDelta.L4System.Readers
import GitLfsDelta.L4System.RoundTrip
import GitLfsDelta.L4System.Confluence
import GitLfsDelta.L4System.Endpoints
import GitLfsDelta.L4System.Service
import GitLfsDelta.L4System.Partition
import GitLfsDelta.L4System.Isolation
import GitLfsDelta.L4System.Statements
import GitLfsDelta.L4System.Pending
import GitLfsDelta.L4System.Exclusion
import GitLfsDelta.L4System.Collectors
import GitLfsDelta.L4System.Retention
import GitLfsDelta.L4System.Reconciliation
import GitLfsDelta.L4System.Progress
import GitLfsDelta.L4System.Availability
import GitLfsDelta.L4System.Permits
import GitLfsDelta.L4System.Readiness
import GitLfsDelta.L4System.Acknowledged
import GitLfsDelta.L5Client.Backend
import GitLfsDelta.L5Client.ActionUrls
import GitLfsDelta.L5Client.Upload
import GitLfsDelta.L5Client.Convergence
import GitLfsDelta.L5Client.Download
import GitLfsDelta.L5Client.Integrity
import GitLfsDelta.L5Client.Moves
import GitLfsDelta.L5Client.Scheduling
import GitLfsDelta.L5Client.Caching
import GitLfsDelta.L5Client.SharedCache
import GitLfsDelta.L5Client.Delivery
import GitLfsDelta.L5Client.Uploading
import GitLfsDelta.L5Client.UploadMoves
import GitLfsDelta.L5Client.UploadPool
import GitLfsDelta.L5Client.UploadOutcome
import GitLfsDelta.L5Client.Deposit
import GitLfsDelta.L5Client.Transfers
import GitLfsDelta.L5Client.TransferProtocol
import GitLfsDelta.L5Client.AgentTransfers
