import RingStore.Digest
import RingStore.Fault

/-!
# The ring of replicas

Replicas stand on a ring in the order of their ids, which are signed 64-bit numbers, and the least
id follows the greatest. A key belongs to the first member at or after its digest, and is held by
that member and those that follow it: the cohort of the key. A ring takes a fixed number of members
and keeps each for good.
-/

namespace RingStore

/-- A replica on the ring. -/
structure Member where
  /-- The place on the ring. -/
  id : Int
  /-- The host at which the replica listens. -/
  host : String
  /-- The port at which the replica listens. -/
  port : UInt16
  deriving DecidableEq, Repr

namespace Member

/-- The place on the ring of the replica at an address: the digest of `port:host`. -/
def idOf (host : String) (port : UInt16) : Int := (digest s!"{port}:{host}").toInt

/-- The replica at an address, in the place that the address gives it. -/
def atAddress (host : String) (port : UInt16) : Member := ⟨idOf host port, host, port⟩

end Member

/-- A ring of at most `capacity` members. -/
structure Ring where
  /-- The number of members that make the ring full. -/
  capacity : Nat
  /-- The members, by increasing id. -/
  members : List Member
  deriving DecidableEq, Repr

namespace Ring

/-- A ring without members. -/
def create (capacity : Nat) : Ring := ⟨capacity, []⟩

/-- The number of members. -/
def size (r : Ring) : Nat := r.members.length

/-- There is no member. -/
def isEmpty (r : Ring) : Bool := r.members.isEmpty

/-- No further member is taken. -/
def isFull (r : Ring) : Bool := r.size == r.capacity

/-- Puts a member in its place. A known id is accepted without change; a new id needs room. -/
def insert (r : Ring) (m : Member) : Except Fault Ring :=
  if r.members.any (·.id == m.id) then .ok r
  else if r.capacity ≤ r.size then .error .generic
  else .ok { r with
    members := r.members.filter (·.id < m.id) ++ m :: r.members.filter (m.id < ·.id) }

/-- Puts the replica at an address on the ring. -/
def register (r : Ring) (host : String) (port : UInt16) : Except Fault Ring :=
  r.insert (.atAddress host port)

/-- The first member whose id satisfies the test, or else the first of all. -/
def firstFrom (r : Ring) (test : Int → Bool) : Option Member :=
  (r.members.find? (test ·.id)).or r.members.head?

/-- The member that a key belongs to: the first at or after its digest, round the ring. -/
def owner? (r : Ring) (key : String) : Option Member :=
  r.firstFrom fun id => (digest key).toInt ≤ id

/-- The member after an id, round the ring. -/
def successor? (r : Ring) (id : Int) : Option Member := r.firstFrom fun other => id < other

/-- A member and those that follow it, `count` in all. -/
def arc (r : Ring) : Nat → Option Member → List Member
  | 0, _ => []
  | _, none => []
  | count + 1, some m => m :: r.arc count (r.successor? m.id)

/-- The members that hold a key: its owner and those that follow it, `count` in all or every
member if there are fewer. This is what is found once there is room for `count` members; where no
room can be made the program panics and finds nobody, see `cohort?`. -/
def cohort (r : Ring) (key : String) (count : Nat) : List Member :=
  r.arc (min count r.size) (r.owner? key)

/-- The most members that room can be made for: a member takes 40 bytes, and no block of memory has
more than 2^63 - 1. -/
def roomLimit : Nat := 9223372036854775807 / 40

/-- The members that hold a key, as the ring answers. Room is made for `count` members before anyone
looks how many there are, and there is no answer if there cannot be that much: the program panics.
That a machine may have less memory than that is left out. -/
def cohort? (r : Ring) (key : String) (count : Nat) : Option (List Member) :=
  if count ≤ roomLimit then some (r.cohort key count) else none

theorem cohort?_eq_some_iff {r : Ring} {key : String} {count : Nat} {cohort : List Member} :
    r.cohort? key count = some cohort ↔ count ≤ roomLimit ∧ r.cohort key count = cohort := by
  rw [cohort?, Option.ite_none_right_eq_some, Option.some.injEq]

theorem cohort?_eq_none_iff {r : Ring} {key : String} {count : Nat} :
    r.cohort? key count = none ↔ roomLimit < count := by
  rw [cohort?, ite_eq_right_iff]
  simp

theorem mem_of_firstFrom {r : Ring} {test : Int → Bool} {m : Member}
    (h : r.firstFrom test = some m) : m ∈ r.members := by
  rcases Option.or_eq_some_iff.1 h with hfind | ⟨-, hhead⟩
  · exact List.mem_of_find?_eq_some hfind
  · exact List.mem_of_head? hhead

theorem mem_of_mem_arc {r : Ring} {count : Nat} {first : Option Member} {m : Member}
    (hfirst : ∀ m, first = some m → m ∈ r.members) (hm : m ∈ r.arc count first) :
    m ∈ r.members := by
  induction count generalizing first with
  | zero => cases first <;> simp [arc] at hm
  | succ count ih =>
    cases first with
    | none => simp [arc] at hm
    | some next =>
      rcases List.mem_cons.1 hm with rfl | hm
      · exact hfirst _ rfl
      · exact ih (fun _ h => mem_of_firstFrom h) hm

/-- Only members hold keys. -/
theorem mem_of_mem_cohort {r : Ring} {key : String} {count : Nat} {m : Member}
    (hm : m ∈ r.cohort key count) : m ∈ r.members :=
  mem_of_mem_arc (fun _ h => mem_of_firstFrom h) hm

end Ring

end RingStore
