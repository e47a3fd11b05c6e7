import RingStore.Disk.Action
import RingStore.Journal.Record
import RingStore.Numeral

/-!
# The journal

A journal is a list of records that outlives a crash, with a cursor for reading. Each record is a
file `0`, `1` and so on without a gap. Clearing removes the files in this order, so that a crash on
the way leaves a gap in front of what is left; opening counts the records up to the first gap and
removes those behind it.
-/

namespace RingStore

open Disk

/-- A journal and its cursor. -/
structure Journal where
  /-- The directory. -/
  dir : Path
  /-- The number of records. -/
  size : Nat
  /-- The number of the record that is read next. -/
  cursor : Nat
  deriving DecidableEq, Repr

namespace Journal

/-- The path of a record. -/
def recordPath (dir : Path) (index : Nat) : Path := Attempt.entryPath dir (toString index)

/-- A file name split at its last dot, if there is one and it is not in front. -/
def splitExtension (name : String) : Option (String × String) :=
  let backwards := name.toList.reverse
  match backwards.dropWhile (· ≠ '.') with
  | _ :: stem@(_ :: _) =>
    some (String.ofList stem.reverse, String.ofList (backwards.takeWhile (· ≠ '.')).reverse)
  | _ => none

/-- The number that a file name gives to a record, however it is written. -/
def indexOf? (name : String) : Option Nat :=
  match splitExtension name with
  | some (stem, extension) =>
    if extension = Attempt.entryExtension then (Numeral.read 18446744073709551615 stem).toOption
    else none
  | none => none

/-- Walks along the records from `index` on, over at most `steps`: the first number without a
record. -/
def extent (dir : Path) : Nat → Nat → Attempt Nat
  | 0, index => return index
  | steps + 1, index => do
    if ← Attempt.exists? (recordPath dir index) then extent dir steps (index + 1) else return index

/-- Removes those of the named files that hold records from a number on. -/
def removeNamed (dir : Path) (first : Nat) : List String → Attempt Unit
  | [] => return
  | name :: rest => do
    if (indexOf? name).any (first ≤ ·) then Attempt.discard (.unlink (dir ++ [name]))
    removeNamed dir first rest

/-- Removes every file that holds a record from a number on. -/
def removeFrom (dir : Path) (first : Nat) : Attempt Unit := do
  removeNamed dir first (← Attempt.list dir)

/-- Opens the journal in a directory, which is made if it is missing. -/
def openIn (dir : Path) : Attempt Journal := do
  Attempt.ensureDirectory dir
  let entries ← Attempt.count dir
  let size ← extent dir (entries + 1) 0
  removeFrom dir size
  return ⟨dir, size, 0⟩

/-- There is no record. -/
def isEmpty (j : Journal) : Bool := j.size == 0

/-- Adds a record at the end. -/
def append (j : Journal) (r : Record) : Attempt Journal := do
  Attempt.writeEntry j.dir (toString j.size) (Wire.encode r)
  return { j with size := j.size + 1 }

/-- Removes the records with the numbers from `index` on, `count` in all, in this order. -/
def removeRange (dir : Path) (index : Nat) : Nat → Attempt Unit
  | 0 => return
  | count + 1 => do
    Attempt.discard (.unlink (recordPath dir index))
    removeRange dir (index + 1) count

/-- Removes every record. -/
def clear (j : Journal) : Attempt Journal := do
  removeRange j.dir 0 j.size
  removeFrom j.dir 0
  return { j with size := 0, cursor := 0 }

/-- Starts reading at the first record. -/
def rewind (j : Journal) : Journal := { j with cursor := 0 }

/-- There is a record to read next. -/
def hasNext (j : Journal) : Bool := j.cursor < j.size

/-- Reads a record by its number. -/
def load (j : Journal) (index : Nat) : Attempt Record := do
  let content ← Attempt.read (recordPath j.dir index)
  ((Wire.ofBytes content).mapError .codec : Except Fault Record)

/-- Reads the next record, if there is one, and moves the cursor past it. -/
def next (j : Journal) : Attempt (Option Record × Journal) := do
  if j.hasNext then
    let r ← j.load j.cursor
    return (some r, { j with cursor := j.cursor + 1 })
  else return (none, j)

end Journal

end RingStore
