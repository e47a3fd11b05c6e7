import RingStore.Coordinator.Task
import RingStore.Gateway.Body
import RingStore.Gateway.ContentType
import RingStore.Gateway.Target

/-!
# The HTTP gateway

The gateway lets HTTP clients use a coordinator. `/kv/KEY` is read, written and deleted with GET,
PUT and DELETE, and `/info` tells who is there. HEAD asks for the head of what GET would answer.
A request is refused by `route`, or becomes a call on the coordinator; `reply` turns the
coordinator's response into a status and a JSON body.
-/

namespace RingStore

namespace Gateway

/-- An HTTP request. -/
structure HttpRequest where
  method : String
  /-- The target, which leads to a path. -/
  target : String
  /-- The content type of the body. -/
  contentType? : Option String
  body : Bytes

/-- A character that a header may hold. -/
def isHeaderChar (c : Char) : Bool := (32 ≤ c.toNat && c.toNat != 127) || c == '\t'

/-- The parts of the request that stand in its head keep to their grammars. -/
def HttpRequest.isWellFormed (q : HttpRequest) : Bool :=
  !q.method.isEmpty && q.method.all isToken && (Target.path? q.target).isSome
    && q.contentType?.all (·.all isHeaderChar)

/-- A reply: its status, and its body if that is JSON. -/
structure Reply where
  status : Nat
  body? : Option Json

/-- A call on the coordinator. -/
inductive Call
  /-- Read a key. -/
  | read (key : String)
  /-- Give a key a value. -/
  | write (key value : String)
  /-- Delete a key. -/
  | delete (key : String)
  /-- Ask who is there. -/
  | survey
  deriving DecidableEq, Repr

/-- The most bytes that a body may have. -/
def bodyLimit : Nat := 2097152

/-- A percent sign and two hexadecimal digits stand for a byte; everything else for itself. -/
def percentDecode : Bytes → Bytes
  | 37 :: a :: b :: rest =>
    match Json.hexValue? a, Json.hexValue? b with
    | some high, some low => UInt8.ofNat (high * 16 + low) :: percentDecode rest
    | _, _ => 37 :: percentDecode (a :: b :: rest)
  | c :: rest => c :: percentDecode rest
  | [] => []

/-- What a path leads to. -/
inductive Place
  /-- A key, as the path spells it. -/
  | key (segment : String)
  /-- The report on who is there. -/
  | info

/-- What a path leads to. A key is one segment that is not empty. -/
def place? (path : String) : Option Place :=
  match path.splitOn "/" with
  | ["", "info"] => some .info
  | ["", "kv", segment] => if segment.isEmpty then none else some (.key segment)
  | _ => none

/-- A reply whose body is not JSON. -/
def bare (status : Nat) : Reply := ⟨status, none⟩

/-- The key that a segment of a path spells. -/
def keyOf (segment : String) : Except Reply String :=
  match Text.ofBytes? (percentDecode (Text.bytes segment)) with
  | some key => .ok key
  | none => .error (bare 400)

/-- The value that a write carries. -/
def valueOf (q : HttpRequest) : Except Reply String := do
  if !q.contentType?.any isJsonType then throw (bare 415)
  if bodyLimit < q.body.length then throw (bare 413)
  match readBody q.body with
  | .ok value => return storedText value
  | .error .malformed => throw (bare 400)
  | .error .wrongShape => throw (bare 422)

/-- The call that a request makes, or the reply that refuses it. -/
def route (q : HttpRequest) : Except Reply Call := do
  let some path := Target.path? q.target | throw (bare 400)
  match place? path with
  | none => throw (bare 404)
  | some .info =>
    if q.method = "GET" ∨ q.method = "HEAD" then return .survey else throw (bare 405)
  | some (.key segment) =>
    if q.method = "GET" ∨ q.method = "HEAD" then return .read (← keyOf segment)
    else if q.method = "PUT" then
      let key ← keyOf segment
      return .write key (← valueOf q)
    else if q.method = "DELETE" then return .delete (← keyOf segment)
    else throw (bare 405)

/-- The coordinator's task for a call. -/
def Call.task (now : String) : Call → Coordinator.Task
  | read key => .ofRead key
  | write key value => .ofWrite (.put key value)
  | delete key => .ofWrite (.del key)
  | survey => .survey now

/-- The status that goes with the words of a response. -/
def statusOf (message : String) : Nat :=
  if message = Response.successText ∨ !message.startsWith "ERROR" then 200
  else if message = Fault.noSuchKey.message then 404
  else if message = Fault.keyTooLong.message ∨ message = Fault.valueTooLong.message
      ∨ message = Fault.invalidRequest.message then 400
  else if message = Fault.generic.message then 409
  else 500

/-- A body with the words of an outcome. -/
def messageBody (message : String) : Json := .object [("message", .text message)]

/-- The reply that tells of an outcome in words. -/
def messageReply (r : Response) : Reply :=
  match r.message? with
  | some message => ⟨statusOf message, some (messageBody message)⟩
  | none => ⟨500, some (messageBody Fault.generic.message)⟩

/-- The reply to a call that the coordinator responded to. -/
def Call.reply : Call → Response → Reply
  | read _, .value key value => ⟨200, some (.object [("key", .text key), ("value", .text value)])⟩
  | _, r => messageReply r

/-- The reply as the method of the request asks for it: the head alone has no body. -/
def Reply.forMethod (r : Reply) (method : String) : Reply :=
  if method = "HEAD" then { r with body? := none } else r

end Gateway

end RingStore
