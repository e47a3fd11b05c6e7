import RingStore.Disk.Tree

/-!
# Actions on a disk

An action is a tree of calls: each call is followed by what to do with its answer. It says which
calls are made in which order, and leaves open what they meet: `Action.run` carries an action out
on a disk where every call does its best, and other readings of the same tree may let calls fail or
stop between two of them.

Looking what is at a path and counting the entries of a directory always succeed. The count is
only used to bound walks along the files of a directory: such a walk cannot meet more files than
the directory has entries.
-/

namespace RingStore

namespace Disk

/-- A tree of calls that ends in an answer. -/
inductive Action (α : Type) where
  /-- The answer. -/
  | done (a : α)
  /-- Read the file at a path. -/
  | read (p : Path) (next : Except DiskFault Bytes → Action α)
  /-- List the names in the directory at a path. -/
  | list (p : Path) (next : Except DiskFault (List String) → Action α)
  /-- Look what is at a path: nothing, or something that is or is not a directory. -/
  | look (p : Path) (next : Option Bool → Action α)
  /-- Count the entries of the directory at a path. -/
  | count (p : Path) (next : Nat → Action α)
  /-- Change the disk. -/
  | change (c : Change) (next : Except DiskFault Unit → Action α)

namespace Action

variable {α β γ : Type}

/-- Goes on with what follows from the answer. -/
def bind : Action α → (α → Action β) → Action β
  | done a, f => f a
  | read p next, f => read p fun r => (next r).bind f
  | list p next, f => list p fun r => (next r).bind f
  | look p next, f => look p fun r => (next r).bind f
  | count p next, f => count p fun r => (next r).bind f
  | change c next, f => change c fun r => (next r).bind f

instance : Monad Action where
  pure := done
  bind := bind

theorem bind_done (x : Action α) : x.bind done = x := by
  induction x with
  | done a => rfl
  | read p next ih | list p next ih | look p next ih | count p next ih | change c next ih =>
    simp only [bind, ih]

theorem bind_assoc (x : Action α) (f : α → Action β) (g : β → Action γ) :
    (x.bind f).bind g = x.bind fun a => (f a).bind g := by
  induction x with
  | done a => rfl
  | read p next ih | list p next ih | look p next ih | count p next ih | change c next ih =>
    simp only [bind, ih]

instance : LawfulMonad Action := LawfulMonad.mk' Action bind_done (fun _ _ => rfl)
  fun x f g => bind_assoc x f g

/-- Carries an action out on a disk. -/
def run : Action α → Disk → α × Disk
  | done a, d => (a, d)
  | read p next, d => (next (d.read p)).run d
  | list p next, d => (next (d.list p)).run d
  | look p next, d => (next ((d.at? p).map (· == .directory))).run d
  | count p next, d => (next (d.names p).length).run d
  | change c next, d =>
    match d.apply c with
    | .ok d' => (next (.ok ())).run d'
    | .error f => (next (.error f)).run d

end Action

/-- An action that may end in a fault. -/
abbrev Attempt (α : Type) := ExceptT Fault Action α

namespace Attempt

/-- The answer of a call, with a fault of the disk as a fault of the attempt. -/
def ofCall {α : Type} (call : (Except DiskFault α → Action (Except Fault α)) →
    Action (Except Fault α)) : Attempt α :=
  ExceptT.mk (call fun r => .done (r.mapError fun f => .io (.disk f)))

/-- Changes the disk. -/
def change (c : Change) : Attempt Unit := ofCall (.change c)

/-- Lists the names in a directory. -/
def list (p : Path) : Attempt (List String) := ofCall (.list p)

/-- Reads a file. -/
def read (p : Path) : Attempt Bytes := ofCall (.read p)

/-- Reads a file that need not be there. -/
def read? (p : Path) : Attempt (Option Bytes) :=
  ExceptT.mk (.read p fun r => .done (match r with
    | .ok content => .ok (some content)
    | .error .notFound => .ok none
    | .error f => .error (.io (.disk f))))

/-- Something is at a path. -/
def exists? (p : Path) : Attempt Bool := ExceptT.mk (.look p fun r => .done (.ok r.isSome))

/-- A directory is at a path. -/
def isDirectory (p : Path) : Attempt Bool :=
  ExceptT.mk (.look p fun r => .done (.ok (r == some true)))

/-- The number of entries of a directory. -/
def count (p : Path) : Attempt Nat := ExceptT.mk (.count p fun n => .done (.ok n))

/-- Removes what is at a path with the given change, if anything is there. -/
def discard (c : Change) : Attempt Unit :=
  ExceptT.mk (.change c fun r => .done (match r with
    | .ok () | .error .notFound => .ok ()
    | .error f => .error (.io (.disk f))))

/-- Makes the directory whose path is given backwards, and those above it that are missing. -/
def makeDirectories : Path → Attempt Unit
  | [] => return
  | name :: above => do
    let p := (name :: above).reverse
    let make : Attempt (Except DiskFault Unit) :=
      ExceptT.mk (.change (.makeDirectory p) fun r => .done (.ok r))
    let accept (r : Except DiskFault Unit) : Attempt Unit :=
      match r with
      | .ok () => return
      | .error f => do
        if ← isDirectory p then return else throw (.io (.disk f))
    match ← make with
    | .error .notFound => do
      makeDirectories above
      accept (← make)
    | r => accept r

/-- Makes sure that a directory is there, with all above it. -/
def ensureDirectory (p : Path) : Attempt Unit := makeDirectories p.reverse

/-- The ending of the names of finished files. -/
def entryExtension : String := "entry"

/-- The ending of the names of files that are being written. -/
def draftExtension : String := "tmp"

/-- The path of a finished file. -/
def entryPath (dir : Path) (stem : String) : Path := dir ++ [s!"{stem}.{entryExtension}"]

/-- The path of a file that is being written. -/
def draftPath (dir : Path) (stem : String) : Path := dir ++ [s!"{stem}.{draftExtension}"]

/-- Gives a file its content in one step: the bytes go to a draft, which then takes the place of the
file. The syncs are left out, that of the draft before it is renamed and that of the directory
afterwards, which is opened for it: whatever is said of failures takes syncs as reliable, so that
they neither fail nor change what is there. -/
def writeEntry (dir : Path) (stem : String) (content : Bytes) : Attempt Unit := do
  change (.create (draftPath dir stem))
  change (.write (draftPath dir stem) content)
  change (.rename (draftPath dir stem) (entryPath dir stem))

end Attempt

end Disk

end RingStore
