/-!
# A queue whose consumers wait

Producers append items and consumers take the oldest. A consumer that finds nothing waits to be
woken. An append is followed by one wake-up call: it wakes the consumer that has waited longest, or
leaves a single permit that the next consumer about to wait uses up instead of waiting. A consumer
that is woken starts over.

The steps of producers and consumers are kept apart, so that every way of mixing them can be told.
A producer owes its wake-up call from the append on; the stages of a consumer say what it does next.
-/

namespace RingStore

namespace Queue

/-- What a consumer does next. -/
inductive Stage (α : Type)
  /-- It states its interest in a wake-up. -/
  | fresh
  /-- It looks for an item. -/
  | looking
  /-- It found nothing and goes to wait. -/
  | leaving
  /-- It waits in line. -/
  | waiting
  /-- It was woken and starts over. -/
  | woken
  /-- It is done, with its item. -/
  | served (item : α)
  deriving Repr

end Queue

/-- A queue together with its consumers. -/
structure Queue (α : Type) where
  /-- The queued items, the oldest first. -/
  items : List α
  /-- A wake-up call found nobody waiting and nobody used it up yet. -/
  permit : Bool
  /-- The waiting consumers, by number, the longest waiting first. -/
  line : List Nat
  /-- The stage of every consumer, by number. -/
  stages : Array (Queue.Stage α)
  /-- The number of appends whose wake-up call is still to come. -/
  owed : Nat

namespace Queue

variable {α : Type}

/-- Nothing queued and nobody there. -/
def empty : Queue α := ⟨[], false, [], #[], 0⟩

/-- The number of queued items. -/
def size (q : Queue α) : Nat := q.items.length

/-- Nothing is queued. -/
def isEmpty (q : Queue α) : Bool := q.items.isEmpty

/-- Changes the stage of a consumer. -/
def setStage (q : Queue α) (i : Nat) (s : Stage α) : Queue α :=
  { q with stages := q.stages.setIfInBounds i s }

/-- A producer appends an item. -/
def append (q : Queue α) (item : α) : Queue α :=
  { q with items := q.items ++ [item], owed := q.owed + 1 }

/-- A producer makes its wake-up call. -/
def wake (q : Queue α) : Queue α :=
  match q.owed, q.line with
  | 0, _ => q
  | n + 1, [] => { q with permit := true, owed := n }
  | n + 1, i :: line => { q with line := line, owed := n }.setStage i .woken

/-- A producer appends an item and makes its wake-up call. -/
def push (q : Queue α) (item : α) : Queue α := (q.append item).wake

/-- Takes the oldest item, if there is one, without waiting. -/
def tryPop (q : Queue α) : Option α × Queue α :=
  match q.items with
  | [] => (none, q)
  | item :: rest => (some item, { q with items := rest })

/-- Drops every queued item and tells how many there were. -/
def drain (q : Queue α) : Nat × Queue α := (q.items.length, { q with items := [] })

/-- A new consumer joins, with the next number. -/
def join (q : Queue α) : Queue α := { q with stages := q.stages.push .fresh }

/-- The next step of a consumer, unless it waits or is done. -/
def step? (q : Queue α) (i : Nat) : Option (Queue α) :=
  match q.stages[i]? with
  | some .fresh => some (q.setStage i .looking)
  | some .looking =>
    match q.tryPop with
    | (some item, rest) => some (rest.setStage i (.served item))
    | (none, _) => some (q.setStage i .leaving)
  | some .leaving =>
    if q.permit then some ({ q with permit := false }.setStage i .fresh)
    else some ({ q with line := q.line ++ [i] }.setStage i .waiting)
  | some .woken => some (q.setStage i .fresh)
  | some .waiting | some (.served _) | none => none

/-- Up to `n` steps of a consumer. -/
def steps (i : Nat) : Nat → Queue α → Queue α
  | 0, q => q
  | n + 1, q =>
    match q.step? i with
    | some q' => steps i n q'
    | none => q

/-- Runs a consumer until it waits or is done. Seven steps are enough: one to start over, three to
look and find nothing, and three more if the permit sends it back. -/
def poll (q : Queue α) (i : Nat) : Queue α := steps i 7 q

/-- Runs every consumer until it waits or is done, the oldest first. -/
def pollAll (q : Queue α) : Queue α := (List.range q.stages.size).foldl poll q

/-- The item that a consumer was served with. -/
def served? (q : Queue α) (i : Nat) : Option α :=
  match q.stages[i]? with
  | some (.served item) => some item
  | _ => none

end Queue

end RingStore
