import RingStore.Wire.Frame
import RingStore.Wire.Messages

/-!
# Connections

A connection carries one request and at most one response, each in a frame. The server reads one
frame and answers it; a frame that holds no request is answered too, but a connection that ends
within a frame, or announces too long a frame, is closed without an answer. What follows the first
frame is never read.
-/

namespace RingStore

namespace Connection

/-- How long a server waits for a request, in milliseconds. -/
def requestTimeout : Nat := 5000

/-- How long a client waits for a connection unless it is set up otherwise, in milliseconds. -/
def connectTimeout : Nat := 500

/-- How long a client waits for a response unless it is set up otherwise, in milliseconds. -/
def responseTimeout : Nat := 5000

/-- What a server sends back on a connection on which it received the given bytes before the other
side closed its end. -/
def serve {m : Type → Type} [Monad m] (handle : Request → m Response) (received : Bytes) :
    m Bytes := do
  let send (r : Response) : Bytes := (Frame.write r).toOption.getD []
  match (Frame.read received : Except Fault Request × Bytes).1 with
  | .ok q => return send (← handle q)
  | .error (.codec _) => return send (.ofFault .invalidRequest)
  | .error _ => return []

/-- What a client gets back from a peer. -/
inductive Received
  /-- The bytes that came before the peer closed its end. -/
  | closedAfter (bs : Bytes)
  /-- Too few bytes for a frame, and no end until the time was up. -/
  | timedOut

/-- The outcome of a request over an open connection. -/
def outcome (q : Request) (timeout : Nat) (received : Received) : Except Fault Response := do
  let _ ← Frame.write q
  match received with
  | .closedAfter bs => (Frame.read bs : Except Fault Response × Bytes).1
  | .timedOut => throw (.io (.noResponse q.name timeout))

end Connection

end RingStore
