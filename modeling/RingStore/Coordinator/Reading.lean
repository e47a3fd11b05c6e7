import RingStore.Coordinator

/-!
# Reading a key through the coordinator

A cached value is answered at once. Otherwise the members that hold the key are asked in ring order
until one answers with a value. The value is cached, unless a write was carried out since the
asking began: the value may be older than that write.
-/

namespace RingStore

namespace Coordinator

/-- How far the reading of a key has come. -/
inductive Reading
  /-- The key is checked and looked up in the cache. -/
  | lookup
  /-- The ring has to be full. -/
  | admission
  /-- The number of writes is noted. -/
  | noting
  /-- The members that hold the key are found. -/
  | routing (epoch : UInt64)
  /-- The members that are left are asked, the first next. -/
  | asking (epoch : UInt64) (left : List Member)
  /-- The pair that a member answered with is cached. -/
  | filling (epoch : UInt64) (key value : String)
  /-- The response is there. -/
  | finished (r : Response)
  deriving DecidableEq, Repr

namespace Reading

/-- What the reading of a key waits for. -/
def demand (key : String) : Reading → Demand
  | asking _ (m :: _) => .contact m (.get key)
  | finished r => .finished r
  | _ => .step

/-- The next step on the shared state. -/
def advance (c : Coordinator) (key : String) : Reading → Coordinator × Reading
  | lookup =>
    match checkKey key with
    | .error f => (c, finished (.ofFault f))
    | .ok () =>
      match c.cache.get key with
      | (some value, cache) => ({ c with cache }, finished (.value key value))
      | (none, _) => (c, admission)
  | admission => (c, if c.ring.isFull then noting else finished (.ofFault .generic))
  | noting => (c, routing c.epoch)
  | routing epoch => (c, asking epoch (c.cohort key))
  | asking _ [] => (c, finished (.ofFault .noSuchKey))
  | filling epoch k value =>
    (if c.epoch = epoch then { c with cache := c.cache.put k value } else c,
      finished (.value k value))
  | stage => (c, stage)

/-- Goes on after an attempt to ask the first member that is left. -/
def contacted : Reading → Contact → Reading
  | asking epoch (_ :: _), .answered (.value key value) => filling epoch key value
  | asking epoch (_ :: left), _ => asking epoch left
  | stage, _ => stage

end Reading

end Coordinator

end RingStore
