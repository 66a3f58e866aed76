import LazyStorage.Lib.OrderedMap
import LazyStorage.Lib.Search
import LazyStorage.Lib.Runs
import LazyStorage.Lib.Window
import LazyStorage.Lib.InOrder
import LazyStorage.Lib.Overwrite
import LazyStorage.Lib.Allowance
import LazyStorage.Lib.PrefixCode
import LazyStorage.Lib.Batch
import LazyStorage.Core.Value
import LazyStorage.Core.Shape
import LazyStorage.Core.RecordClock
import LazyStorage.Core.PathKeys
import LazyStorage.Core.Doc
import LazyStorage.Core.Merge
import LazyStorage.Core.Alike
import LazyStorage.Core.Forgetting
import LazyStorage.Core.Replays
import LazyStorage.Core.Faithful
import LazyStorage.Core.Agreement
import LazyStorage.Core.Deeds
import LazyStorage.Core.Children
import LazyStorage.Core.Cascade
import LazyStorage.Core.Orphans
import LazyStorage.Core.Journal
import LazyStorage.Core.Kinship
import LazyStorage.Core.Touches
import LazyStorage.Core.Landing
import LazyStorage.Core.Places
import LazyStorage.Core.Trusted
import LazyStorage.Core.Apart
import LazyStorage.Core.Inside
import LazyStorage.Core.Reported
import LazyStorage.Core.Arrays
import LazyStorage.Core.Diff
import LazyStorage.Core.Diffed
import LazyStorage.Core.Compile
import LazyStorage.Core.Times
import LazyStorage.Core.Formed
import LazyStorage.Core.Latest
import LazyStorage.Core.ReplicaClock
import LazyStorage.Core.Positions
import LazyStorage.Core.Fractions
import LazyStorage.Core.Integers
import LazyStorage.Core.Between
import LazyStorage.Core.Stamps
import LazyStorage.Server.OwnWrites
import LazyStorage.Server.Rules
import LazyStorage.Server.Store
import LazyStorage.Server.Sqlite
import LazyStorage.Server.Leases
import LazyStorage.Server.Leased
import LazyStorage.Server.Grouped
import LazyStorage.Server.Progress
import LazyStorage.Server.Host
import LazyStorage.Server.Registry
import LazyStorage.Server.Deletions
import LazyStorage.Server.Turns
import LazyStorage.Server.Verdicts
import LazyStorage.Server.Time
import LazyStorage.Server.Chronicle
import LazyStorage.Server.Stored
import LazyStorage.Server.Served
import LazyStorage.Server.Session
import LazyStorage.Server.Throttle
import LazyStorage.Server.Limited
import LazyStorage.Server.Delta
import LazyStorage.Server.Entered
import LazyStorage.Server.Replayed
import LazyStorage.Server.Outbox
import LazyStorage.Server.Retention
import LazyStorage.Server.Presence
import LazyStorage.Server.Peers
import LazyStorage.Server.Told
import LazyStorage.Client.Mirror
import LazyStorage.Client.Stamping
import LazyStorage.Client.WorkingOut
import LazyStorage.Client.LocalOutbox
import LazyStorage.Client.Pending
import LazyStorage.Client.Patience
import LazyStorage.Client.RecordList
import LazyStorage.Client.Slots
import LazyStorage.Client.Placing
import LazyStorage.Client.Reconciling
import LazyStorage.Client.Link
import LazyStorage.Client.Lifetime
import LazyStorage.Client.Acknowledged
import LazyStorage.Client.Standing
import LazyStorage.Client.Current
import LazyStorage.Client.Rows
import LazyStorage.Client.Reopened
import LazyStorage.Client.Connection
import LazyStorage.Client.Connected
import LazyStorage.Client.Upkeep
import LazyStorage.Relay.Copy
import LazyStorage.Relay.Copied
import LazyStorage.Client.Numbering
import LazyStorage.Hub.Socket
import LazyStorage.Hub.Custody
import LazyStorage.Hub.Admission
import LazyStorage.Hub.Vouching
import LazyStorage.Hub.Revalidated
import LazyStorage.Relay.Grants
import LazyStorage.Relay.Listed
