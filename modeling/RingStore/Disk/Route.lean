import RingStore.Disk.Action

/-!
# Routes

A route spells the way to a directory: names between slashes, from the root if a slash stands in
front, and else from the directory where the program is at home. A single dot stays, and two dots go
up. `Route.enter` goes the way, makes what is missing on it, and ends at `Route.target`. The disk
has no links, so that to go up is to take the last step down back.
-/

namespace RingStore

open Disk

/-- The path of the directory above all others. -/
def Path.root : Path := [""]

namespace Route

/-- A step on the way. -/
inductive Step
  /-- Down to what has this name. -/
  | down (name : String)
  | up
  deriving DecidableEq, Repr

/-- Where a step leads. From the root there is no way up. -/
def Step.take (here : Path) : Step → Path
  | down name => here ++ [name]
  | up => if here = Path.root then here else here.dropLast

end Route

/-- The way to a directory. -/
structure Route where
  /-- The way begins at the root. -/
  fromRoot : Bool
  steps : List Route.Step
  /-- The way ends with a single dot, so that what the last step leads to has to be there. -/
  dotted : Bool
  deriving DecidableEq, Repr

namespace Route

/-- The route that a text spells. -/
def ofText (s : String) : Route :=
  let names := (s.splitOn "/").filter (· ≠ "")
  { fromRoot := s.startsWith "/"
    steps := (names.filter (· ≠ ".")).map fun name => if name = ".." then .up else .down name
    dotted := names.getLast? = some "." }

/-- Where a route begins. -/
def start (home : Path) (r : Route) : Path := if r.fromRoot then Path.root else home

/-- Where a route leads. -/
def target (home : Path) (r : Route) : Path := r.steps.foldl Step.take (r.start home)

/-- The most bytes that a name may have. -/
def nameLimit : Nat := 255

/-- The most bytes that the spelling of a route may have. -/
def textLimit : Nat := 4095

/-- Goes the steps from a directory, makes what is missing, and tells where they end. -/
def follow (dotted : Bool) : Path → List Step → Attempt Path
  | here, [] => return here
  | here, .up :: rest => follow dotted (Step.take here .up) rest
  | here, .down name :: rest => do
    let there := Step.take here (.down name)
    let settled := rest.isEmpty && !dotted
    if nameLimit < Text.size name then throw (.io (.disk .nameTooLong))
    if !(← Attempt.isDirectory there) then
      if ← Attempt.exists? there then
        throw (.io (.disk (if settled then .alreadyExists else .notADirectory)))
      if rest.isEmpty && dotted then throw (.io (.disk .notFound))
      Attempt.change (.makeDirectory there)
    follow dotted there rest

/-- Goes the way that a text spells, makes what is missing on it, and tells where it ends. -/
def enter (home : Path) (text : String) : Attempt Path := do
  if textLimit < Text.size text then throw (.io (.disk .nameTooLong))
  let r := ofText text
  follow r.dotted (r.start home) r.steps

end Route

end RingStore
