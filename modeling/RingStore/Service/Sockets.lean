import RingStore.Connection
import RingStore.Service.Files
import Std.Async.DNS
import Std.Async.TCP
import Std.Async.Timer

/-!
# Connections to other computers

A client connects within a time, puts one request, and waits for the response for a time of its own.
Times are in milliseconds.
-/

namespace RingStore

open Std.Async Std.Net

namespace Sockets

/-- A connection. -/
abbrev Peer := TCP.Socket.Client

/-- The most bytes that are taken from a connection at a time. -/
def chunkSize : UInt64 := 65536

/-- A time as a timer takes it. -/
def span (ms : Nat) : Std.Time.Millisecond.Offset := Std.Time.Millisecond.Offset.ofNat ms

/-- An address with a port. -/
def withPort (port : UInt16) : IPAddr → Std.Net.SocketAddress
  | .v4 addr => .v4 ⟨addr, port⟩
  | .v6 addr => .v6 ⟨addr, port⟩

/-- Tries the addresses of a host one after the other, and ends with the first that works. -/
def firstOf {α : Type} (host : String) (port : UInt16) (attempt : Std.Net.SocketAddress → Async α) :
    Async α := do
  let mut failure := IO.userError "could not resolve to any addresses"
  for addr in ← DNS.getAddrInfo host (toString port) do
    try
      return (← attempt (withPort port addr))
    catch e =>
      failure := e
  throw failure

/-- The end of an attempt, or nothing if it takes longer than the given time. -/
def within {α : Type} (ms : Nat) (attempt : Async α) : Async (Option α) :=
  Async.race (some <$> attempt) do
    sleep (span ms)
    return none

/-- Connects to a host. -/
def connect (host : String) (port : UInt16) (timeout : Nat) : IO (Except Fault Peer) := do
  let refused (words : String) : Fault := .connection s!"{host}:{port}: {words}"
  let attempt : Async Peer := firstOf host port fun addr => do
    let peer ← TCP.Socket.Client.mk
    peer.connect addr
    return peer
  match ← ((within timeout attempt).block).toBaseIO with
  | .ok (some peer) => return .ok peer
  | .ok none => return .error (refused "connect timed out")
  | .error e => return .error (refused (systemText e))

/-- Takes bytes from a connection until they settle a frame, the other side closes its end, or the
clock reaches the deadline. -/
partial def receive (peer : Peer) (deadline : Nat) (received : Bytes) :
    Async Connection.Received := do
  if Frame.isSettled received then return .closedAfter received
  let left := deadline - (← IO.monoMsNow)
  if left = 0 then return .timedOut
  let arrived ← Selectable.one #[
    .case (peer.recvSelector chunkSize) fun chunk? => return some chunk?,
    .case (← Selector.sleep (span left)) fun () => return none]
  match arrived with
  | some (some chunk) => receive peer deadline (received ++ chunk.data.toList)
  | some none => return .closedAfter received
  | none => return .timedOut

/-- Puts a request over an open connection. -/
def exchange (peer : Peer) (q : Request) (timeout : Nat) : IO (Except Fault Response) := do
  let deadline := (← IO.monoMsNow) + timeout
  let talk : Async Connection.Received := do
    match Frame.write q with
    | .ok frame =>
      match ← within timeout (peer.send ⟨frame.toArray⟩) with
      | some () => receive peer deadline []
      | none => return .timedOut
    | .error _ => return .closedAfter []
  match ← (talk.block).toBaseIO with
  | .ok received => return Connection.outcome q timeout received
  | .error e => return .error (.io (.other (systemText e)))

/-- Connects to a host and puts a request. -/
def request (host : String) (port : UInt16) (connectTimeout responseTimeout : Nat) (q : Request) :
    IO (Except Fault Response) := do
  match ← connect host port connectTimeout with
  | .ok peer => exchange peer q responseTimeout
  | .error f => return .error f

end Sockets

end RingStore
