import RingStore.Gateway
import RingStore.Service.Tasks
import RingStore.SocketAddress
import Std.Http.Server

/-!
# Serving the gateway

HTTP requests are taken off the wire, routed, and served by tasks of the coordinator.
-/

namespace RingStore

open Std Std.Async Std.Http

namespace Gateway

/-- The address as a socket takes it. -/
def bindAddress (a : SocketAddress) : Std.Net.SocketAddress :=
  let port := UInt16.ofNat a.port
  match a.host with
  | .v4 bytes =>
    let byte (i : Nat) : UInt8 := UInt8.ofNat (bytes.getD i 0)
    .v4 ⟨.ofParts (byte 0) (byte 1) (byte 2) (byte 3), port⟩
  | .v6 groups _ =>
    let group (i : Nat) : UInt16 := UInt16.ofNat (groups.getD i 0)
    .v6 ⟨.ofParts (group 0) (group 1) (group 2) (group 3) (group 4) (group 5) (group 6) (group 7),
      port⟩

/-- A request off the wire. No more of a body is read than shows that it is too long. -/
def httpRequestOf (q : Http.Request Body.Stream) : ContextAsync HttpRequest := do
  let mut body := ByteArray.empty
  for chunk in q.body do
    body := body ++ chunk.data
    if bodyLimit < body.size then break
  return { method := toString q.line.method, target := toString q.line.uri
           contentType? := (q.line.headers.get? Header.Name.contentType).map (·.value)
           body := body.data.toList }

/-- A reply for the wire. -/
def Reply.response (r : Reply) : Async (Http.Response Body.Any) := do
  let status := (Status.ofCode none (UInt16.ofNat r.status)).getD .internalServerError
  let head := Http.Response.withStatus status
  match r.body? with
  | none => return (← head.empty : Http.Response Body.Empty)
  | some body =>
    let head := head.header! "Content-Type" "application/json"
    return (← head.fromBytes body.compact.toUTF8 : Http.Response Body.Full)

/-- Replies to a request. -/
def replyTo (c : Coordinator.Running) (q : HttpRequest) : IO Reply := do
  match route q with
  | .error refusal => return refusal
  | .ok call => return call.reply (← c.run (call.task (← presentTime)) 0)

/-- Serves the gateway on an address. Every request has a thread of its own. -/
def start (c : Coordinator.Running) (a : SocketAddress) : IO Server := do
  let handler := Server.Handler.ofFn fun q => do
    let q ← httpRequestOf q
    let replying ← IO.asTask (replyTo c q) .dedicated
    let reply ← IO.ofExcept (← await replying)
    (reply.forMethod q.method).response
  (Server.serve (bindAddress a) handler).block

end Gateway

end RingStore
