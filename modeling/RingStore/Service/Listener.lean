import RingStore.Service.Sockets
import Std.Sync.CancellationToken
import Std.Sync.Channel

/-!
# Serving connections

Connections are taken in the order of their arrival by a fixed number of workers, each of which
serves one at a time. A stopped listener takes no more connections and drops those that wait.
-/

namespace RingStore

open Std.Async Std.Net

/-- A port on which connections arrive. -/
structure Listener where
  socket : TCP.Socket.Server
  port : UInt16
  /-- The address in words. -/
  address : String
  /-- The connections that wait. -/
  waiting : Std.CloseableChannel.Sync Sockets.Peer
  /-- What stops the listener. -/
  stopping : Std.CancellationToken

namespace Listener

/-- The number of connections that the system holds back for a listener. -/
def backlog : UInt32 := 1024

/-- How long a listener rests after a connection failed to arrive, in milliseconds. -/
def pause : Nat := 50

/-- Listens on a port of a host until it is stopped; for port zero the system chooses one. -/
def openOn (host : String) (port : UInt16) (stopping : Std.CancellationToken) :
    IO (Except Fault Listener) := do
  let attempt : Async TCP.Socket.Server := Sockets.firstOf host port fun addr => do
    let socket ← TCP.Socket.Server.mk
    socket.bind addr
    socket.listen backlog
    return socket
  match ← (attempt.block).toBaseIO with
  | .ok socket =>
    let name ← socket.getSockName
    return .ok { socket, port := name.port, address := toString name
                 waiting := ← Std.CloseableChannel.Sync.new, stopping }
  | .error e => return .error (.io (.other (systemText e)))

/-- Serves one connection. -/
def answer (handle : Request → IO Response) (peer : Sockets.Peer) : IO Unit := do
  let deadline := (← IO.monoMsNow) + Connection.requestTimeout
  match ← (Sockets.receive peer deadline []).block with
  | .closedAfter received =>
    let reply ← Connection.serve handle received
    unless reply.isEmpty do (peer.send ⟨reply.toArray⟩).block
  | .timedOut => return

/-- Serves the connections that wait until the listener is stopped. -/
def work (l : Listener) (handle : Request → IO Response) : IO Unit := do
  for peer in l.waiting do
    if ← l.stopping.isCancelled then return
    let _ ← (answer handle peer).toBaseIO

/-- Takes connections until the listener is stopped. -/
def accept (l : Listener) : Async Unit := do
  while !(← l.stopping.isCancelled) do
    try
      Selectable.one #[
        .case l.socket.acceptSelector fun peer => do let _ ← l.waiting.trySend peer,
        .case l.stopping.selector fun () => return]
    catch _ => sleep (Sockets.span pause)

/-- Begins to take connections and to serve them. There is at least one worker. -/
def start (l : Listener) (workers : Nat) (handle : Request → IO Response) : IO Unit := do
  for _ in List.range (max workers 1) do
    let _ ← IO.asTask (l.work handle) .dedicated
  let _ ← l.accept.toIO

/-- Stops the listener. -/
def stop (l : Listener) : IO Unit := do
  l.stopping.cancel
  let _ ← (l.waiting.close).toBaseIO

end Listener

end RingStore
