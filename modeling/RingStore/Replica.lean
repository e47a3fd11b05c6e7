import RingStore.Cache
import RingStore.Journal
import RingStore.Message
import RingStore.Settings
import RingStore.Store

/-!
# Replicas

A replica keeps keys in a store behind a cache. On its own it carries writes out at once. As part of
a cohort it votes: a write is checked and written to the journal, and then waits for the decision.
The decision is written to the journal too before it is carried out, so that after a crash the
replica takes up where the journal ends. The journal never holds more than the last vote and what
followed it.

Every request is an action on the disk that ends in the response and the replica's new state.
-/

namespace RingStore

open Disk

/-- How far the last transaction has come. -/
inductive Phase
  /-- Nothing was voted on yet. -/
  | ready
  /-- The replica voted to carry the operation out, and waits for the decision. -/
  | pending (op : Operation)
  /-- The last operation was carried out. -/
  | committed
  /-- The last operation was dropped. -/
  | aborted
  deriving DecidableEq, Repr

/-- The operation that waits for a decision, if there is one. -/
def Phase.pending? : Phase → Option Operation
  | .pending op => some op
  | _ => none

/-- A running replica. -/
structure Replica where
  /-- What it was set up with. -/
  settings : ReplicaSettings
  /-- The port it announces. -/
  port : UInt16
  store : Store
  cache : Cache
  journal : Journal
  /-- How far the last transaction has come. -/
  phase : Phase

/-- The directory of the store. -/
def ReplicaSettings.storePath (s : ReplicaSettings) : Path := Path.ofText s.dataDir

/-- The directory of the journal. -/
def ReplicaSettings.journalPath (s : ReplicaSettings) : Path := s.storePath ++ [journalName]

namespace Replica

/-- Opens the store and the journal, without reading the journal. -/
def create (settings : ReplicaSettings) : Attempt Replica := do
  let store ← Store.openIn settings.storePath Store.standardBuckets
  let journal ← Journal.openIn settings.journalPath
  let cache ← (Cache.create settings.cacheSets settings.cacheSlots : Except Fault Cache)
  return { settings, port := settings.port, store, cache, journal, phase := .ready }

/-- Reads a key. What the store had to be asked for is cached. -/
def get (r : Replica) (key : String) : Action (Response × Replica) := do
  match checkKey key with
  | .error f => return (.ofFault f, r)
  | .ok () =>
    match r.cache.get key with
    | (some value, cache) => return (.value key value, { r with cache })
    | (none, _) =>
      match ← (r.store.get key).run with
      | .ok value => return (.value key value, { r with cache := r.cache.put key value })
      | .error f => return (.ofFault f, r)

/-- Carries an operation out in the store and then in the cache. A deleted key leaves the cache even
if the store had no such key. -/
def apply (r : Replica) (op : Operation) : Action (Except Fault Unit × Replica) :=
  match op with
  | .put key value => do
    match ← (r.store.put key value).run with
    | .ok () => return (.ok (), { r with cache := r.cache.put key value })
    | .error f => return (.error f, r)
  | .del key => do
    let outcome ← (r.store.delete key).run
    return (outcome, { r with cache := r.cache.erase key })

/-- Carries a decided operation out. To delete a key that is gone already is no fault then. -/
def applyDecided (r : Replica) (op : Operation) : Action (Except Fault Unit × Replica) := do
  match ← r.apply op with
  | (.error .noSuchKey, r) => return (.ok (), r)
  | result => return result

/-- Reads the next records of the journal, at most `steps`, having come to `phase`. A vote waits for
its decision; a decision with nothing to decide on is passed over. -/
def replay (phase : Phase) : Nat → Replica → Action (Except Fault Unit × Replica)
  | 0, r => return (.ok (), { r with phase })
  | steps + 1, r => do
    match ← r.journal.next.run with
    | .error f => return (.error f, r)
    | .ok (none, _) => return (.ok (), { r with phase })
    | .ok (some record, journal) =>
      let r := { r with journal }
      match record.kind, phase with
      | .put, _ | .del, _ => replay ((record.operation?.map .pending).getD phase) steps r
      | .commit, .pending op =>
        match ← r.applyDecided op with
        | (.ok (), r) => replay .committed steps r
        | (.error f, r) => return (.error f, r)
      | .abort, .pending _ => replay .aborted steps r
      | _, _ => replay phase steps r

/-- Takes up where the journal ends. -/
def recover (r : Replica) : Action (Except Fault Unit × Replica) :=
  let r := { r with journal := r.journal.rewind }
  replay .ready (r.journal.size + 1) r

/-- Opens the store and the journal; a replica that votes takes up where the journal ends. -/
def openWith (settings : ReplicaSettings) : Attempt Replica := do
  let r ← create settings
  if settings.votes then
    match ← (r.recover : Action (Except Fault Unit × Replica)) with
    | (.ok (), r) => return r
    | (.error f, _) => throw f
  else return r

/-- Writes a vote to the journal in place of all that it holds. -/
def recordVote (j : Journal) (op : Operation) : Action (Except Fault Unit × Journal) := do
  match ← j.clear.run with
  | .error f => return (.error f, j)
  | .ok j =>
    match ← (j.append (.ofVote op)).run with
    | .error f => return (.error f, j)
    | .ok j => return (.ok (), j)

/-- Votes on an operation. -/
def vote (r : Replica) (op : Operation) : Action (Response × Replica) := do
  match r.phase, op.check with
  | .pending _, _ => return (.ofFault .invalidRequest, r)
  | _, .error f => return (.voteAbort f.message, r)
  | _, .ok () =>
    match ← recordVote r.journal op with
    | (.error f, journal) => return (.voteAbort f.message, { r with journal })
    | (.ok (), journal) => return (.voteCommit, { r with journal, phase := .pending op })

/-- Takes a decision. Without an operation that waits for one there is nothing left to do. A fault
leaves the operation waiting, so that the decision can be given again. -/
def decide (r : Replica) (commit : Bool) : Action (Response × Replica) := do
  match r.phase with
  | .pending op =>
    match ← (r.journal.append (.ofDecision commit)).run with
    | .error f => return (.ofFault f, r)
    | .ok journal =>
      let r := { r with journal }
      if commit then
        match ← r.applyDecided op with
        | (.ok (), r) => return (.ack, { r with phase := .committed })
        | (.error f, r) => return (.ofFault f, r)
      else return (.ack, { r with phase := .aborted })
  | _ => return (.ack, r)

/-- Tells the time and the replica's address. -/
def report (r : Replica) (now : String) : Response :=
  .report (infoHeader now ++ addressLine r.settings.host r.port)

/-- Serves a request on its own: writes are carried out at once. -/
def serveAlone (now : String) (r : Replica) (q : Request) : Action (Response × Replica) :=
  match q with
  | .get key => r.get key
  | .put key value => do
    let (outcome, r) ← r.apply (.put key value)
    return (.ofResult outcome, r)
  | .del key => do
    let (outcome, r) ← r.apply (.del key)
    return (.ofResult outcome, r)
  | .info => return (r.report now, r)
  | .register _ _ | .commit | .abort => return (.ofFault .invalidRequest, r)

/-- Serves a request as part of a cohort: writes ask for a vote, and decisions follow. -/
def serveVoting (now : String) (r : Replica) (q : Request) : Action (Response × Replica) :=
  match q with
  | .get key => r.get key
  | .put key value => r.vote (.put key value)
  | .del key => r.vote (.del key)
  | .commit => r.decide true
  | .abort => r.decide false
  | .info => return (r.report now, r)
  | .register _ _ => return (.ofFault .invalidRequest, r)

/-- Serves a request as the settings say. -/
def serve (now : String) (r : Replica) (q : Request) : Action (Response × Replica) :=
  if r.settings.votes then serveVoting now r q else serveAlone now r q

/-- Removes the store and the journal from the disk. The cache stays. -/
def clean (r : Replica) : Action (Except Fault Unit × Replica) := do
  match ← r.store.clean.run with
  | .ok () => return (.ok (), { r with phase := .ready })
  | .error f => return (.error f, r)

/-- The request by which the replica announces itself to the coordinator. -/
def announcement (r : Replica) : Request := .register r.settings.host r.port

/-- What the coordinator's response to the announcement means. -/
def announced (outcome : Except Fault Response) : Except Fault Unit := do
  let response ← outcome
  if response.isSuccess then return else throw .generic

end Replica

end RingStore
