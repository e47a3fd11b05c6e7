import RingStore.Cache
import RingStore.Message
import RingStore.Ring
import RingStore.Settings

/-!
# The coordinator

The coordinator knows the replicas on the ring, caches values, and carries writes out one at a time.
Requests are served by tasks that run at the same time, and this is the state that they share. A
task changes it in single steps; what it has to wait for are members of the ring, and how a member
was met is all that it learns from them.
-/

namespace RingStore

/-- The state that the coordinator's tasks share. -/
structure Coordinator where
  /-- What it was set up with. -/
  settings : CoordinatorSettings
  /-- The replicas. -/
  ring : Ring
  /-- Cached values. -/
  cache : Cache
  /-- A write is under way, and no other may start. -/
  busy : Bool
  /-- The number of writes that were carried out, modulo 2^64. A value that was read while it
  changed may be old, and is not cached. -/
  epoch : UInt64

namespace Coordinator

/-- A coordinator without replicas. -/
def create (settings : CoordinatorSettings) : Except Fault Coordinator := do
  let cache ← Cache.create settings.cacheSets settings.cacheSlots
  return { settings, ring := Ring.create settings.capacity, cache, busy := false, epoch := 0 }

/-- Puts the replica at an address on the ring. -/
def register (c : Coordinator) (host : String) (port : UInt16) : Response × Coordinator :=
  match c.ring.register host port with
  | .ok ring => (.success, { c with ring })
  | .error f => (.ofFault f, c)

/-- The members that hold a key. They are asked for once the ring is full, when there are as many as
the settings want, so room for them can be made: `Ring.cohort?` answers. -/
def cohort (c : Coordinator) (key : String) : List Member :=
  c.ring.cohort key c.settings.redundancy

/-- How an attempt to put a request to a member ended. -/
inductive Contact
  /-- The member answered. -/
  | answered (r : Response)
  /-- No connection to the member came about. -/
  | unreachable
  /-- There was a connection, but no usable answer; the member may or may not have got the
  request. -/
  | lost
  deriving DecidableEq, Repr

/-- How an attempt ended, from its outcome at the client's end of the connection. -/
def Contact.ofOutcome : Except Fault Response → Contact
  | .ok r => answered r
  | .error (.connection _) => unreachable
  | .error _ => lost

/-- What is told to those who watch a write. -/
inductive Notice
  /-- A member could not be reached. -/
  | unreachable (m : Member)
  /-- All votes are in, and the decision is about to be sent. -/
  | decided
  deriving DecidableEq, Repr

/-- What a task waits for. -/
inductive Demand
  /-- Nothing: its next step is on the shared state. -/
  | step
  /-- The end of an attempt to put a request to a member. -/
  | contact (m : Member) (q : Request)
  /-- The end of an attempt to connect to a member. -/
  | probe (m : Member)
  /-- Nothing more: it ended with a response. -/
  | finished (r : Response)
  deriving DecidableEq, Repr

end Coordinator

end RingStore
