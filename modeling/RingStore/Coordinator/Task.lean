import RingStore.Coordinator.Reading
import RingStore.Coordinator.Writing

/-!
# The coordinator's tasks

Each request is served by a task of its own. A task says what it waits for; who runs it carries out
its steps on the shared state and tells it how members were met, in whatever order the tasks come
to run.
-/

namespace RingStore

namespace Coordinator

/-- The serving of one request. -/
inductive Task
  /-- Reading a key. -/
  | read (key : String) (stage : Reading)
  /-- Writing a key. -/
  | write (op : Operation) (stage : Writing)
  /-- Putting a replica on the ring. -/
  | register (host : String) (port : UInt16)
  /-- A report on who is there begins with the time. -/
  | survey (now : String)
  /-- The members that are left are tried, the first next; the text tells of those before. -/
  | trying (left : List Member) (report : String)
  /-- The response is there. -/
  | finished (r : Response)
  deriving DecidableEq, Repr

namespace Task

/-- The task that reads a key. -/
def ofRead (key : String) : Task := read key .lookup

/-- The task that carries out a write; other requests are refused. -/
def ofWrite (q : Request) : Task :=
  match q.operation? with
  | some op => write op .checking
  | none => finished (.ofFault .invalidRequest)

/-- The task that serves a request. Decisions are not for the coordinator to take. -/
def ofRequest (now : String) : Request → Task
  | .get key => ofRead key
  | .put key value => ofWrite (.put key value)
  | .del key => ofWrite (.del key)
  | .register host port => register host port
  | .info => survey now
  | .commit | .abort => finished (.ofFault .invalidRequest)

/-- What the task waits for. -/
def demand : Task → Demand
  | read key stage => stage.demand key
  | write op stage => stage.demand op
  | trying (m :: _) _ => .probe m
  | finished r => .finished r
  | _ => .step

/-- The next step on the shared state, with what is told of it. -/
def advance (c : Coordinator) : Task → Coordinator × Task × Option Notice
  | read key stage =>
    let (c, stage) := stage.advance c key
    (c, read key stage, none)
  | write op stage =>
    let (c, stage, notice) := stage.advance c op
    (c, write op stage, notice)
  | register host port =>
    let (r, c) := c.register host port
    (c, finished r, none)
  | survey now => (c, trying c.ring.members (infoHeader now ++ "\nSlaves:"), none)
  | trying [] report => (c, finished (.report report), none)
  | task => (c, task, none)

/-- Goes on after an attempt to put a request to a member, with what is told of it. -/
def contacted : Task → Contact → Task × Option Notice
  | read key stage, met => (read key (stage.contacted met), none)
  | write op stage, met =>
    let (stage, notice) := stage.contacted met
    (write op stage, notice)
  | task, _ => (task, none)

/-- Goes on after an attempt to connect to a member. -/
def probed : Task → Bool → Task
  | trying (m :: left) report, up =>
    trying left (if up then report ++ addressLine m.host m.port else report)
  | task, _ => task

end Task

end Coordinator

end RingStore
