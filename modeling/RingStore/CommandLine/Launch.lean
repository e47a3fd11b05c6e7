import RingStore.CommandLine
import RingStore.Coordinator
import RingStore.Disk.Route
import RingStore.Network
import RingStore.Replica

/-!
# Starting from the command line

A coordinator is set up, listens, and then listens for HTTP if it is to. A replica reads the
coordinator's address from its command before it touches the disk, goes to the directory of its data
and opens them before it listens, and announces itself last of all.
-/

namespace RingStore

namespace CommandLine

open Disk

/-- A replica that is ready to listen, and the address of its coordinator. -/
structure Launched where
  replica : Replica
  /-- The coordinator's host. -/
  host : String
  /-- The coordinator's port. -/
  port : UInt16

/-- Opens a replica in the directory to which the route in its settings leads from `home`. -/
def openFrom (home : Path) (settings : ReplicaSettings) : Attempt Replica := do
  let dir ← Route.enter home settings.dataDir
  Replica.openWith { settings with dataDir := dir.text }

/-- Opens the replica that a command asks for, in a program that is at home in a directory. -/
def launch (home : Path) (c : ReplicaCommand) : Action (Except Failure Launched) := do
  match coordinatorAddress c.coordinator with
  | .error f => return .error f
  | .ok (host, port) =>
    match ← (openFrom home c.settings).run with
    | .ok replica => return .ok ⟨replica, host, port⟩
    | .error f => return .error (.ofFault f)

/-- What the coordinator's response to the announcement means for the program. -/
def registered (outcome : Except Fault Response) : Except Failure Unit :=
  (Replica.announced outcome).mapError .ofFault

/-- A fault that keeps a program from listening. -/
def unheard (f : IoFault) : Failure := .ofFault (.io f)

/-- Starts a coordinator up to the point where it serves. -/
def startCoordinator (net : Network) (c : CoordinatorCommand) : Except Failure Coordinator := do
  let coordinator ← (Coordinator.create c.settings).mapError .ofFault
  (net.open? c.host).mapError unheard
  if let some a := c.http? then
    (net.open? a.host.text).mapError fun f => (⟨f.message, none⟩ : Failure)
  return coordinator

/-- Starts a replica up to the point where it serves. Only one that votes announces itself. -/
def startReplica (net : Network) (home : Path) (c : ReplicaCommand) :
    Action (Except Failure Replica) := do
  match ← launch home c with
  | .error f => return .error f
  | .ok l =>
    return do
      (net.open? c.host).mapError unheard
      if c.settings.votes then registered (net.request l.host l.port l.replica.announcement)
      return l.replica

end CommandLine

end RingStore
