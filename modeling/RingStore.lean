import RingStore.Digest
import RingStore.Message
import RingStore.Wire.Frame
import RingStore.Wire.Messages
import RingStore.Cache
import RingStore.Ring
import RingStore.Queue
import RingStore.Settings
import RingStore.Store
import RingStore.Journal
import RingStore.Replica
import RingStore.Connection
import RingStore.Coordinator.Task
import RingStore.Gateway
import RingStore.CommandLine.Launch
import RingStore.Timestamp
import RingStore.Main
import RingStore.Proofs.Replica.Recovery
import RingStore.Proofs.Coordinator.AllOrNothing
import RingStore.Proofs.Coordinator.LateMessages
import RingStore.Proofs.Store.FiniteMap
import RingStore.Proofs.Replica.PlainMap
import RingStore.Proofs.Coordinator.Freshness
import RingStore.Proofs.Replica.Irrevocable
import RingStore.Proofs.Coordinator.Copies
import RingStore.Proofs.Journal.Interruption
import RingStore.Proofs.Replica.Restart
import RingStore.Proofs.Coordinator.Registration
import RingStore.Proofs.Coordinator.LeftOver
import RingStore.Proofs.Queue.WakeUps
import RingStore.Proofs.Replica.Retrying
import RingStore.Proofs.Wire.OneReply
import RingStore.Proofs.Replica.CacheAgreement
import RingStore.Proofs.Coordinator.TakingTurns
import RingStore.Proofs.Cache.LossyMap
import RingStore.Proofs.Coordinator.Membership
import RingStore.Proofs.Queue.Delivery
import RingStore.Proofs.Coordinator.Asking
import RingStore.Proofs.Coordinator.Decision
import RingStore.Proofs.Gateway.Status
import RingStore.Proofs.Cache.Eviction
import RingStore.Proofs.Store.Updates
import RingStore.Proofs.Coordinator.ReadAmidOthers
import RingStore.Proofs.Ring.Arc
import RingStore.Proofs.Ring.Growth
import RingStore.Proofs.Journal.ListWithCursor
