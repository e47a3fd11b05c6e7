import RingStore.Fault
import RingStore.Message
import RingStore.SocketAddress

/-!
# The network

What a program meets on the network: whether it can listen at a host, and who answers at a port of
one. `Network.secluded` is the network of a computer without links. It has addresses and a name of
its own to listen at, but nobody can be reached from it, not even itself.
-/

namespace RingStore

/-- Why a call on the network failed. -/
inductive NetworkFault
  /-- No address is known for the host. -/
  | unresolved
  /-- The address is not one of this computer. -/
  | notAssigned
  /-- No way leads to the address. -/
  | unreachable
  /-- Nobody listens at the address. -/
  | refused
  deriving DecidableEq, Repr

/-- The system's wording of a failed call. -/
def NetworkFault.message : NetworkFault → String
  | .unresolved => "failed to lookup address information: Temporary failure in name resolution"
  | .notAssigned => "Cannot assign requested address (os error 99)"
  | .unreachable => "Network is unreachable (os error 101)"
  | .refused => "Connection refused (os error 111)"

/-- The network as a program meets it. -/
structure Network where
  /-- Begins to listen at a host. -/
  listen : String → Except NetworkFault Unit
  /-- Who answers at a port of a host. -/
  reach : String → UInt16 → Except NetworkFault (Request → Response)

namespace Network

/-- Begins to listen at a host, with a fault in the system's words. -/
def open? (net : Network) (host : String) : Except IoFault Unit :=
  (net.listen host).mapError fun f => .other f.message

/-- Puts a request to a host and a port. -/
def request (net : Network) (host : String) (port : UInt16) (q : Request) : Except Fault Response :=
  match net.reach host port with
  | .ok answer => .ok (answer q)
  | .error f => .error (.connection s!"{host}:{port}: {f.message}")

/-- The name by which every computer calls itself. -/
def ownName : String := "localhost"

/-- The network of a computer without links. -/
def secluded : Network where
  listen host :=
    match HostAddress.parse? host with
    | some a => if a.isOwn then .ok () else .error .notAssigned
    | none => if host = ownName then .ok () else .error .unresolved
  reach host _ :=
    .error (if (HostAddress.parse? host).isSome ∨ host = ownName then .unreachable else .unresolved)

end Network

end RingStore
