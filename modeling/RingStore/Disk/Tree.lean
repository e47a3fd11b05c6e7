import RingStore.Fault

/-!
# Directories and files

A disk is a finite tree of directories and files under a root directory. A path names a node by the
names on the way from the root. Calls that change the disk either carry out the whole change or
fail and change nothing.
-/

namespace RingStore

/-- The names on the way from the root to a node. -/
abbrev Path := List String

namespace Path

/-- The path that a text with slashes between the names stands for. A leading slash is kept as an
empty first name; other empty names are dropped. -/
def ofText (s : String) : Path :=
  match s.splitOn "/" with
  | "" :: rest@(_ :: _) => "" :: rest.filter (· ≠ "")
  | names => names.filter (· ≠ "")

/-- The names with slashes between them. -/
def text (p : Path) : String := if p = [""] then "/" else "/".intercalate p

end Path

namespace Disk

/-- What a path can name. -/
inductive Node
  /-- A file with its bytes. -/
  | file (content : Bytes)
  | directory
  deriving DecidableEq, Repr

/-- A change of the disk. -/
inductive Change
  /-- Make the path an empty file, whether a file was there or not. -/
  | create (p : Path)
  /-- Give the file at the path its bytes. -/
  | write (p : Path) (content : Bytes)
  /-- Move the file at one path to another, over a file that is there. -/
  | rename (source target : Path)
  /-- Remove the file at the path. -/
  | unlink (p : Path)
  /-- Make the path an empty directory. -/
  | makeDirectory (p : Path)
  /-- Remove the directory at the path and all below it. -/
  | removeTree (p : Path)
  deriving DecidableEq, Repr

end Disk

/-- A tree of directories and files: its nodes below the root, each with its path. -/
structure Disk where
  /-- The nodes below the root. -/
  nodes : List (Path × Disk.Node)
  deriving DecidableEq, Repr

namespace Disk

/-- Nothing but the root. -/
def empty : Disk := ⟨[]⟩

/-- What is at a path. -/
def at? (d : Disk) (p : Path) : Option Node := if p = [] then some .directory else d.nodes.lookup p

/-- Why nothing is at a path: a file stands on the way to it, or simply nothing is there. -/
def absence (d : Disk) (p : Path) : DiskFault :=
  let above := (List.range p.length).map fun n => d.at? (p.take n)
  if above.any fun node => match node with | some (.file _) => true | _ => false then .notADirectory
  else .notFound

/-- Puts a node at a path, in place of what is there. -/
def set (d : Disk) (p : Path) (node : Node) : Disk :=
  if (d.nodes.lookup p).isSome then
    ⟨d.nodes.map fun (q, old) => if q = p then (q, node) else (q, old)⟩
  else ⟨(p, node) :: d.nodes⟩

/-- Takes the node at a path away. -/
def erase (d : Disk) (p : Path) : Disk := ⟨d.nodes.filter (·.1 ≠ p)⟩

/-- Adds a node at a free path, if the directory it goes into is there. -/
def add (d : Disk) (p : Path) (node : Node) : Except DiskFault Disk :=
  match d.at? p.dropLast with
  | some .directory => .ok (d.set p node)
  | some (.file _) => .error .notADirectory
  | none => .error (d.absence p.dropLast)

/-- The bytes of the file at a path. -/
def read (d : Disk) (p : Path) : Except DiskFault Bytes :=
  match d.at? p with
  | some (.file content) => .ok content
  | some .directory => .error .isADirectory
  | none => .error (d.absence p)

/-- The names in a directory, in no particular order. -/
def names (d : Disk) (p : Path) : List String :=
  d.nodes.filterMap fun (q, _) => if q ≠ [] ∧ q.dropLast = p then q.getLast? else none

/-- The names in the directory at a path, if it is one. -/
def list (d : Disk) (p : Path) : Except DiskFault (List String) :=
  match d.at? p with
  | some .directory => .ok (d.names p)
  | some (.file _) => .error .notADirectory
  | none => .error (d.absence p)

/-- Carries out a change, or tells why it cannot be. Only files are moved: a directory that is to
replace a file is refused as not being one, and any other directory as being one. -/
def apply (d : Disk) : Change → Except DiskFault Disk
  | .create p =>
    match d.at? p with
    | some .directory => .error .isADirectory
    | some (.file _) => .ok (d.set p (.file []))
    | none => d.add p (.file [])
  | .write p content =>
    match d.at? p with
    | some .directory => .error .isADirectory
    | some (.file _) => .ok (d.set p (.file content))
    | none => .error (d.absence p)
  | .rename source target =>
    match d.at? source, d.at? target with
    | none, _ => .error (d.absence source)
    | some .directory, some (.file _) => .error .notADirectory
    | some .directory, _ => .error .isADirectory
    | some (.file _), some .directory => .error .isADirectory
    | some node, _ => (d.erase source).add target node
  | .unlink p =>
    match d.at? p with
    | some .directory => .error .isADirectory
    | some (.file _) => .ok (d.erase p)
    | none => .error (d.absence p)
  | .makeDirectory p =>
    match d.at? p with
    | some _ => .error .alreadyExists
    | none => d.add p .directory
  | .removeTree p =>
    match d.at? p with
    | some .directory => .ok ⟨d.nodes.filter fun (q, _) => !p.isPrefixOf q⟩
    | some (.file _) => .error .notADirectory
    | none => .error (d.absence p)

end Disk

end RingStore
