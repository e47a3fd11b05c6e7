import RingStore.Operation

/-!
# Requests and responses

What clients, replicas and the coordinator say to one another. Every request gets one response.
To a replica that votes, `put` and `del` ask for a vote, and `commit` and `abort` are decisions.
-/

namespace RingStore

/-- A request to a coordinator or a replica. -/
inductive Request
  /-- Read a key. -/
  | get (key : String)
  /-- Give a key a value. -/
  | put (key value : String)
  /-- Delete a key. -/
  | del (key : String)
  /-- Announce a replica to the coordinator. -/
  | register (host : String) (port : UInt16)
  /-- Ask who is there. -/
  | info
  /-- The decision to carry out what was voted on. -/
  | commit
  /-- The decision to drop what was voted on. -/
  | abort
  deriving DecidableEq, Repr

namespace Request

/-- The key that the request is about, if it is about one. -/
def key? : Request → Option String
  | get key | put key _ | del key => some key
  | _ => none

/-- The name of the request, as reports show it. -/
def name : Request → String
  | get _ => "GET"
  | put _ _ => "PUT"
  | del _ => "DEL"
  | register _ _ => "REGISTER"
  | info => "INFO"
  | commit => "COMMIT"
  | abort => "ABORT"

/-- The operation that a write asks for. -/
def operation? : Request → Option Operation
  | put key value => some (.put key value)
  | del key => some (.del key)
  | _ => none

end Request

/-- The request that asks for an operation. -/
def Operation.request : Operation → Request
  | put key value => .put key value
  | del key => .del key

@[simp] theorem Operation.operation?_request (op : Operation) :
    op.request.operation? = some op := by
  cases op <;> rfl

/-- A response to a request. -/
inductive Response
  /-- An outcome in words. -/
  | report (message : String)
  /-- The value of a key. -/
  | value (key value : String)
  /-- The replica is ready to carry the operation out. -/
  | voteCommit
  /-- The replica cannot carry the operation out. -/
  | voteAbort (message : String)
  /-- The decision is carried out. -/
  | ack
  deriving DecidableEq, Repr

namespace Response

/-- The wording of success. -/
def successText : String := "SUCCESS"

/-- Success. -/
def success : Response := report successText

/-- The response that tells of a fault. -/
def ofFault (f : Fault) : Response := report f.message

/-- Success, or the fault. -/
def ofResult : Except Fault Unit → Response
  | .ok () => success
  | .error f => ofFault f

/-- The words of the response, if it has any. -/
def message? : Response → Option String
  | report message | voteAbort message => some message
  | _ => none

/-- The response says that all went well. -/
def isSuccess (r : Response) : Bool := r.message? == some successText

/-- No fault is worded as success. -/
theorem isSuccess_ofFault (f : Fault) : (ofFault f).isSuccess = false := by
  have happend : ∀ s detail : String, (∃ c ∈ s.toList.head?, c ≠ 'S') →
      s ++ detail ≠ successText := by
    rintro s detail ⟨c, hc, hne⟩ heq
    have hlist := congrArg (fun t => t.toList.head?) heq
    simp only [String.toList_append, List.head?_append, Option.mem_def.1 hc,
      Option.some_or] at hlist
    exact hne (Option.some.inj hlist)
  have hmessage : f.message ≠ successText := by
    cases f with
    | noSuchKey | keyTooLong | valueTooLong | storageUnavailable | generic | invalidRequest =>
      decide
    | connection => exact happend _ _ ⟨'E', rfl, by decide⟩
    | io | setup => exact happend _ _ ⟨'I', rfl, by decide⟩
    | codec => exact happend _ _ ⟨'C', rfl, by decide⟩
  simp [isSuccess, ofFault, message?, hmessage]

end Response

/-- The first line of a report on who is there. -/
def infoHeader (now : String) : String := "TIMESTAMP: " ++ now

/-- The line of such a report that names an address. -/
def addressLine (host : String) (port : UInt16) : String := s!"\n\x7b{host}, {port}\x7d"

end RingStore
