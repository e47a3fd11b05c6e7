import RingStore.Fault

/-!
# Settings

What a coordinator and a replica are set up with. Setters keep two rules: a coordinator never asks
for more copies of a key than there are replicas, and the longest wait between two attempts is at
least the shortest. Times are in milliseconds.
-/

namespace RingStore

/-- What a coordinator is set up with. -/
structure CoordinatorSettings where
  /-- The number of replicas that must be there before requests are served. -/
  capacity : Nat
  /-- The number of replicas that hold each key. -/
  redundancy : Nat
  /-- The number of cache sets. -/
  cacheSets : Nat
  /-- The number of slots in a cache set. -/
  cacheSlots : Nat
  /-- The number of connections served at a time. -/
  workers : Nat
  /-- How long to wait for a connection. -/
  connectTimeout : Nat
  /-- How long to wait for a response. -/
  responseTimeout : Nat
  /-- How long to wait for a connection that only shows who is there. -/
  probeTimeout : Nat
  /-- The wait before the second attempt to deliver a decision. -/
  retryBase : Nat
  /-- The longest wait between two attempts. -/
  retryMax : Nat
  deriving DecidableEq, Repr

namespace CoordinatorSettings

/-- Two replicas that both hold every key. -/
def standard : CoordinatorSettings where
  capacity := 2
  redundancy := 2
  cacheSets := 4
  cacheSlots := 4
  workers := 8
  connectTimeout := 500
  responseTimeout := 5000
  probeTimeout := 200
  retryBase := 150
  retryMax := 1200

/-- Sets the number of replicas; the copies of a key are cut down to it. -/
def withCapacity (s : CoordinatorSettings) (capacity : Nat) : CoordinatorSettings :=
  { s with capacity, redundancy := min s.redundancy capacity }

/-- Sets the number of copies of a key, cut down to the number of replicas. -/
def withRedundancy (s : CoordinatorSettings) (redundancy : Nat) : CoordinatorSettings :=
  { s with redundancy := min redundancy s.capacity }

/-- Standard settings but for the numbers of replicas and of copies. -/
def ofCapacity (capacity redundancy : Nat) : CoordinatorSettings :=
  (standard.withCapacity capacity).withRedundancy redundancy

/-- Sets the shape of the cache. -/
def withCache (s : CoordinatorSettings) (sets slots : Nat) : CoordinatorSettings :=
  { s with cacheSets := sets, cacheSlots := slots }

/-- Sets the number of connections served at a time. -/
def withWorkers (s : CoordinatorSettings) (workers : Nat) : CoordinatorSettings :=
  { s with workers }

/-- Sets how long to wait for a connection. -/
def withConnectTimeout (s : CoordinatorSettings) (ms : Nat) : CoordinatorSettings :=
  { s with connectTimeout := ms }

/-- Sets how long to wait for a response. -/
def withResponseTimeout (s : CoordinatorSettings) (ms : Nat) : CoordinatorSettings :=
  { s with responseTimeout := ms }

/-- Sets the waits between attempts; the longest is raised to the shortest. -/
def withRetries (s : CoordinatorSettings) (base longest : Nat) : CoordinatorSettings :=
  { s with retryBase := base, retryMax := max longest base }

/-- The wait before a decision is sent again to a member that did not acknowledge it, having been
sent again `times` times before. It doubles up to the longest wait. -/
def redeliveryWait (s : CoordinatorSettings) (times : Nat) : Nat :=
  min (s.retryBase * Nat.pow 2 times) s.retryMax

end CoordinatorSettings

/-- What a replica is set up with. -/
structure ReplicaSettings where
  /-- The directory of the store, as text. -/
  dataDir : String
  /-- The number of cache sets. -/
  cacheSets : Nat
  /-- The number of slots in a cache set. -/
  cacheSlots : Nat
  /-- The host that the replica announces. -/
  host : String
  /-- The port that the replica listens on. -/
  port : UInt16
  /-- The replica votes on writes instead of carrying them out at once. -/
  votes : Bool
  /-- The number of connections served at a time. -/
  workers : Nat
  deriving DecidableEq, Repr

namespace ReplicaSettings

/-- Standard settings for data in a directory. -/
def ofDataDir (dataDir : String) : ReplicaSettings where
  dataDir
  cacheSets := 4
  cacheSlots := 4
  host := "localhost"
  port := 0
  votes := true
  workers := 4

/-- Sets the shape of the cache. -/
def withCache (s : ReplicaSettings) (sets slots : Nat) : ReplicaSettings :=
  { s with cacheSets := sets, cacheSlots := slots }

/-- Sets the address. -/
def withAddress (s : ReplicaSettings) (host : String) (port : UInt16) : ReplicaSettings :=
  { s with host, port }

/-- Sets whether the replica votes. -/
def withVotes (s : ReplicaSettings) (votes : Bool) : ReplicaSettings := { s with votes }

/-- Sets the number of connections served at a time. -/
def withWorkers (s : ReplicaSettings) (workers : Nat) : ReplicaSettings := { s with workers }

/-- The name of the journal's directory inside the store's. -/
def journalName : String := "tpclog"

/-- The directory of the journal, as text: inside the store's, behind one slash. -/
def journalDir (s : ReplicaSettings) : String :=
  if s.dataDir.isEmpty || s.dataDir.endsWith "/" then s.dataDir ++ journalName
  else s.dataDir ++ "/" ++ journalName

end ReplicaSettings

end RingStore
