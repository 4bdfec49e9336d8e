import TransportLookout.Library.Table
import TransportLookout.Library.Path
import TransportLookout.Models
import TransportLookout.Services.Runs
import TransportLookout.Services.Leases
import TransportLookout.Worker
import TransportLookout.System
import TransportLookout.System.Steps
import TransportLookout.System.ShardRows
import TransportLookout.System.Copies
import TransportLookout.Safety.TerminalShards
import TransportLookout.Safety.Fencing
import TransportLookout.Safety.Attempts
import TransportLookout.Safety.Outbox
import TransportLookout.System.RunRows
import TransportLookout.Safety.RunOutcome
import TransportLookout.Safety.Coverage
import TransportLookout.Safety.Cancellation
import TransportLookout.Safety.ResultFencing
import TransportLookout.Worker.Results
import TransportLookout.Library.Streak
import TransportLookout.ReadModel.Materialization
import TransportLookout.ReadModel.History
import TransportLookout.ReadModel.Restart
import TransportLookout.Safety.Recoverable
import TransportLookout.Safety.Artifacts
import TransportLookout.Safety.Budget
import TransportLookout.Safety.Backoff
import TransportLookout.Library.Files
import TransportLookout.System.Host
import TransportLookout.Safety.Scratch
import TransportLookout.Safety.Archive
import TransportLookout.Library.Ipv4
import TransportLookout.Services.Inventory
import TransportLookout.System.Operations
import TransportLookout.Safety.Authorized
import TransportLookout.System.Scheduling
import TransportLookout.Safety.Schedules
import TransportLookout.ReadModel.Reconciliation
import TransportLookout.ReadModel.Settlement
import TransportLookout.System.Scanning
import TransportLookout.Safety.Flushes
import TransportLookout.Safety.Ending
import TransportLookout.Safety.Ownership
import TransportLookout.Safety.Retries
import TransportLookout.Safety.Isolation
import TransportLookout.Library.Patch
import TransportLookout.ReadModel.Diff
import TransportLookout.Safety.FailedAttempts
import TransportLookout.Library.Pipe
import TransportLookout.Worker.Command
import TransportLookout.Safety.Draining
import TransportLookout.Library.Partition
import TransportLookout.ReadModel.Exposures
import TransportLookout.Safety.Orphans
import TransportLookout.Library.Paging
import TransportLookout.ReadModel.Pagination
import TransportLookout.Safety.Sharding
import TransportLookout.Library.Csv
import TransportLookout.Services.Import
import TransportLookout.Safety.Imports
import TransportLookout.Library.Slots
import TransportLookout.Safety.CatchUp
import TransportLookout.Safety.Residue
import TransportLookout.Library.Text
import TransportLookout.Services.Auth
import TransportLookout.Safety.Authentication
import TransportLookout.Library.Pattern
import TransportLookout.Library.Ports
import TransportLookout.Services.Profiles
import TransportLookout.Worker.Scanners
import TransportLookout.Safety.Ports
import TransportLookout.Library.CsvWriter
import TransportLookout.Library.Journal
import TransportLookout.ReadModel.Export
import TransportLookout.ReadModel.Summary
import TransportLookout.Safety.Authority
import TransportLookout.Safety.Journal
import TransportLookout.Services.ImportFile
import TransportLookout.Safety.Accountability
import TransportLookout.Safety.Upgrade
import TransportLookout.Safety.Gauges
import TransportLookout.Library.Reference
import TransportLookout.Safety.Anchored
import TransportLookout.Safety.Linking
import TransportLookout.Safety.References
import TransportLookout.Library.Evolution
import TransportLookout.Library.Reach
import TransportLookout.Safety.Advances
import TransportLookout.Safety.Completing
import TransportLookout.Safety.Completion
import TransportLookout.Safety.Progress
