import RingStore.CommandLine.Launch
import RingStore.Service.Listener
import RingStore.Service.Web
import Std.Async.Signal

/-!
# The program

The program runs the coordinator or the replica that its command line asks for, until it is
interrupted. It ends with 0 then, with 1 after a failure and with 2 if the command line is out of
order.
-/

namespace RingStore

open Std.Async

namespace CommandLine

/-- How an option is shown. -/
def usageOf : String × ValueKind → String
  | (name, .switch) => s!"      --{name}"
  | (name, _) => s!"      --{name} <VALUE>"

/-- The ways to call the program. -/
def usageText : String :=
  "\n".intercalate (["Replicated key-value store with two-phase commit", "",
    s!"Usage: kvstore {coordinatorRole} [OPTIONS]"] ++ coordinatorOptions.map usageOf
    ++ ["", s!"       kvstore {replicaRole} --port <VALUE> [OPTIONS]"] ++
      replicaOptions.map usageOf)

/-- Waits until the program is interrupted. -/
def untilInterrupted : IO Unit := do
  let waiter ← Signal.Waiter.mk .sigint true
  let interrupted ← waiter.wait
  IO.println "Press Ctrl+C to shutdown"
  (← IO.getStdout).flush
  let _ ← interrupted.block

/-- The result of a call, or the end of the program. -/
def orEnd {α ε : Type} (failure : ε → Failure) (result : Except ε α) : ExceptT Failure IO α :=
  ExceptT.mk (pure (result.mapError failure))

/-- Serves requests on a port while something else goes on, and until that ends. -/
def serving (host : String) (port : UInt16) (workers : Nat) (stopping : Std.CancellationToken)
    (handle : Request → IO Response) (meanwhile : Listener → ExceptT Failure IO Unit) :
    ExceptT Failure IO Unit := do
  let listener ← orEnd .ofFault (← Listener.openOn host port stopping)
  listener.start workers handle
  try meanwhile listener
  finally listener.stop

/-- Runs a coordinator. -/
def runCoordinator (c : CoordinatorCommand) : ExceptT Failure IO Unit := do
  let shared ← Std.Mutex.new (← orEnd .ofFault (Coordinator.create c.settings))
  let stopping ← Std.CancellationToken.new
  let running : Coordinator.Running := { shared, settings := c.settings, stopping }
  serving c.host c.port c.workers stopping running.answer fun listener => do
    IO.println s!"Coordinator listening on {listener.address}"
    if let some a := c.http? then
      let opening ← (Gateway.start running a).toBaseIO
      let _ ← orEnd (fun e => ⟨systemText e, none⟩) opening
      IO.println s!"HTTP gateway listening on {a.text}"
    untilInterrupted

/-- Runs a replica. -/
def runReplica (c : ReplicaCommand) : ExceptT Failure IO Unit := do
  let home := Path.ofText (← IO.currentDir).toString
  let launched ← ExceptT.mk (launch home c).perform
  let shared ← Std.Mutex.new launched.replica
  let stopping ← Std.CancellationToken.new
  serving c.host c.port c.workers stopping (Replica.answer shared) fun listener => do
    let replica : Replica ← shared.atomically do
      modify fun r => { r with port := listener.port }
      MonadState.get
    IO.println s!"Replica listening on {listener.address}"
    if replica.settings.votes then
      let outcome ← Sockets.request launched.host launched.port Connection.connectTimeout
        Connection.responseTimeout replica.announcement
      ExceptT.mk (pure (registered outcome))
    untilInterrupted

/-- Does what a command says. -/
def Command.run : Command → ExceptT Failure IO Unit
  | .coordinate c => runCoordinator c
  | .replicate c => runReplica c

end CommandLine

end RingStore

open RingStore CommandLine in
/-- Runs the command that the words behind the program's name make, and ends with its exit code. -/
def main (args : List String) : IO UInt32 := do
  match CommandLine.read args with
  | .error .help =>
    IO.println usageText
    return 0
  | .error .usage =>
    IO.eprintln usageText
    return 2
  | .ok command =>
    match ← command.run.run with
    | .ok () => return 0
    | .error f =>
      IO.eprintln f.text
      return 1
