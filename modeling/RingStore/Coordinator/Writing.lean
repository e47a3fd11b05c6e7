import RingStore.Coordinator

/-!
# Writing a key through the coordinator

A write is a transaction among the members that hold the key. Every one of them is asked for its
vote, in ring order, whatever the others voted. If all vote to carry the write out, the decision is
to carry it out, and otherwise to drop it. The decision is sent to one member after the other, to
each until it acknowledges. Only one write is under way at a time.
-/

namespace RingStore

namespace Coordinator

/-- How far a write has come. -/
inductive Writing
  /-- The key and the value are checked. -/
  | checking
  /-- The ring has to be full. -/
  | admission
  /-- No other write may be under way. -/
  | entering
  /-- The members that hold the key are found. -/
  | routing
  /-- The members that are left are asked for their votes, the first next. -/
  | voting (cohort left : List Member) (unanimous : Bool)
  /-- The members that are left are sent the decision, the first next. -/
  | deciding (commit : Bool) (left : List Member)
  /-- The write that was carried out is noted and cached. -/
  | settling
  /-- Other writes may start. -/
  | leaving (r : Response)
  /-- The response is there. -/
  | finished (r : Response)
  deriving DecidableEq, Repr

/-- The request that tells a decision. -/
def decisionRequest (commit : Bool) : Request := if commit then .commit else .abort

/-- Notes a write that was carried out, and caches its value or drops its key. -/
def settle (c : Coordinator) (op : Operation) : Coordinator :=
  { c with
    epoch := c.epoch + 1
    cache := match op with
      | .put key value => c.cache.put key value
      | .del key => c.cache.erase key }

namespace Writing

/-- What a write waits for. -/
def demand (op : Operation) : Writing → Demand
  | voting _ (m :: _) _ => .contact m op.request
  | deciding commit (m :: _) => .contact m (decisionRequest commit)
  | finished r => .finished r
  | _ => .step

/-- The next step on the shared state, with what is told of it. -/
def advance (c : Coordinator) (op : Operation) : Writing → Coordinator × Writing × Option Notice
  | checking =>
    match op.check with
    | .error f => (c, finished (.ofFault f), none)
    | .ok () => (c, admission, none)
  | admission => (c, if c.ring.isFull then entering else finished (.ofFault .generic), none)
  | entering =>
    if c.busy then (c, finished (.ofFault .invalidRequest), none)
    else ({ c with busy := true }, routing, none)
  | routing => (c, voting (c.cohort op.key) (c.cohort op.key) true, none)
  | voting cohort [] unanimous => (c, deciding unanimous cohort, some .decided)
  | deciding true [] => (c, settling, none)
  | deciding false [] => (c, leaving (.ofFault .generic), none)
  | settling => (c.settle op, leaving .success, none)
  | leaving r => ({ c with busy := false }, finished r, none)
  | stage => (c, stage, none)

/-- What is told of an attempt to reach a member. -/
def noticeOf (m : Member) : Contact → Option Notice
  | .unreachable => some (.unreachable m)
  | _ => none

/-- Goes on after an attempt to reach the first member that is left, with what is told of it. -/
def contacted : Writing → Contact → Writing × Option Notice
  | voting cohort (m :: left) unanimous, met =>
    (voting cohort left (unanimous && met == .answered .voteCommit), noticeOf m met)
  | deciding commit (m :: left), met =>
    (deciding commit (if met = .answered .ack then left else m :: left), noticeOf m met)
  | stage, _ => (stage, none)

end Writing

end Coordinator

end RingStore
