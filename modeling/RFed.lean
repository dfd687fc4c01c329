import RFed.Lib.HashMap
import RFed.Lib.Runs
import RFed.DeferredQueue.Order
import RFed.DeferredQueue.Capacity
import RFed.PullAnswer
import RFed.Subscription.Own
import RFed.Subscription.Renewals
import RFed.Fanout.Copies
import RFed.BackupTick.Rows
import RFed.BackupTick.Queueings
import RFed.BackupPush.Heartbeat
import RFed.Sync.Intake
import RFed.Sync.Asked
import RFed.Sync.Progress
import RFed.Propagation.Custody
import RFed.Propagation.Plain
import RFed.Propagation.Settled
import RFed.Inbound.Closed
import RFed.Propagation.Limits
import RFed.Propagation.FirstSight
import RFed.Propagation.StoredOnce
import RFed.Propagation.Startup
import RFed.Subscription.Mirror
import RFed.BackupPush.Drained
import RFed.BackupPush.Chain
import RFed.Propagation.Fairness
import RFed.Propagation.Contention
import RFed.Propagation.Reindexed
import RFed.Propagation.Batch
import RFed.Sync.Sessions
import RFed.Sync.Backoff
import RFed.BlobStore.Accounting
import RFed.StreamRegistry.Settled
import RFed.Namespace
import RFed.Distro.Announces
import RFed.Propagation.OfferAnswer
import RFed.Fanout.Fallback
import RFed.Fanout.FlushRuns
import RFed.Propagation.Remembered
import RFed.Propagation.RoundTrip
import RFed.BlobStore.Refused
import RFed.Sync.Caps
import RFed.Sync.RoundTrip
import RFed.Propagation.Get
import RFed.StoreDb.ImportedOnce
import RFed.Notify.Payload
import RFed.Notify.Rekeyed
import RFed.Propagation.SyncClaims
import RFed.LinkSession.OneLink
import RFed.Bridge.Pushes
import RFed.Bridge.Wakes
import RFed.Notify.Dispatch
import RFed.Distro.Signed
import RFed.Channel.Federated
import RFed.Sync.Known
import RFed.StreamRegistry.Opened
import RFed.Propagation.PeeringKeys
import RFed.Mailbox.Signed
import RFed.Mailbox.Kept
