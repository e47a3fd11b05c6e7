import RingStore.Limits

/-!
# Operations

A change of one key: to give it a value, or to delete it. Writes travel as operations from the
coordinator's request through a replica's vote to its store.
-/

namespace RingStore

/-- A change of one key. -/
inductive Operation
  /-- Give the key a value. -/
  | put (key value : String)
  /-- Delete the key. -/
  | del (key : String)
  deriving DecidableEq, Repr

namespace Operation

/-- The key that changes. -/
def key : Operation → String
  | put key _ => key
  | del key => key

/-- The value the key gets, if it keeps one. -/
def value? : Operation → Option String
  | put _ value => some value
  | del _ => none

/-- Refuses an operation whose key or value is too long. -/
def check : Operation → Except Fault Unit
  | put key value => checkPair key value
  | del key => checkKey key

end Operation

end RingStore
