import RingStore.Coordinator.Task
import RingStore.Replica
import RingStore.Service.Sockets
import RingStore.Timestamp
import Std.Sync.CancellationToken
import Std.Sync.Mutex
import Std.Time

/-!
# Serving requests

Each request of a coordinator is served by a task of its own. The tasks share the coordinator's
state and hold it for one step at a time. A task that waits for a member puts the request to it; if
it wants to put the same request to the same member again, it rests first, longer each time. A
replica serves one request at a time.
-/

namespace RingStore

open Std.Async

/-- A coordinator at work. -/
structure Coordinator.Running where
  /-- The state that the tasks share. -/
  shared : Std.Mutex Coordinator
  /-- What the coordinator was set up with. -/
  settings : CoordinatorSettings
  /-- What ends the work. -/
  stopping : Std.CancellationToken

/-- The longest time that is added by chance to a rest between two attempts, in milliseconds. -/
def restScatter : Nat := 49

/-- The present time as reports show it, in the zone of this computer. -/
def presentTime : IO String := do
  let now ← Std.Time.Timestamp.now
  let ahead ← match ← Std.Time.Database.defaultGetLocalZoneRules.toBaseIO with
    | .ok rules => pure (rules.findLocalTimeTypeForTimestamp now).getTimeZone.offset.second.val
    | .error _ => pure 0
  return (Timestamp.ofSeconds (now.toSecondsSinceUnixEpoch.val + ahead).toNat).text

/-- Rests for some time. The end of the work ends the rest and what was to follow it. -/
def Coordinator.Running.rest (c : Coordinator.Running) (ms : Nat) : IO Unit := do
  let rest : Async Unit := do
    Selectable.one #[
      .case (← Selector.sleep (Sockets.span ms)) fun () => return,
      .case c.stopping.selector fun () => return]
  rest.block
  if ← c.stopping.isCancelled then throw (IO.userError "the work has ended")

/-- Runs a task to its end. The task has put its present request `times` times already. -/
partial def Coordinator.Running.run (c : Coordinator.Running) (task : Coordinator.Task)
    (times : Nat) : IO Response := do
  match task.demand with
  | .finished r => return r
  | .step =>
    let next ← c.shared.atomically do
      let (state, next, _) := task.advance (← get)
      set state
      return next
    c.run next 0
  | .contact m q =>
    let outcome ← Sockets.request m.host m.port c.settings.connectTimeout
      c.settings.responseTimeout q
    let (next, _) := task.contacted (.ofOutcome outcome)
    if next.demand = task.demand then
      c.rest (c.settings.redeliveryWait times + (← IO.rand 0 restScatter))
      c.run next (times + 1)
    else c.run next 0
  | .probe m =>
    let outcome ← Sockets.connect m.host m.port c.settings.probeTimeout
    c.run (task.probed outcome.isOk) 0

/-- Serves a request of a coordinator. -/
def Coordinator.Running.answer (c : Coordinator.Running) (q : Request) : IO Response := do
  c.run (.ofRequest (← presentTime) q) 0

/-- Serves a request of a replica. -/
def Replica.answer (shared : Std.Mutex Replica) (q : Request) : IO Response := do
  let now ← presentTime
  shared.atomically do
    let (response, r) ← (Replica.serve now (← MonadState.get) q).perform
    set r
    return response

end RingStore
