import RingStore.Disk.Action

/-!
# Actions on the disk of this computer

`Disk.Action.perform` carries an action out on real files, one call after the other. A path begins
at the working directory, unless its first name is empty: then it begins at the root.
-/

namespace RingStore

/-- The system's number for the cause of a failed call and its words for it, if it gave them. The
number may come with a minus sign, in 32 bits. -/
def systemCause? : IO.Error → Option (Nat × String)
  | .alreadyExists _ code words | .otherError code words | .resourceBusy code words
  | .resourceVanished code words | .unsupportedOperation code words | .hardwareFault code words
  | .unsatisfiedConstraints code words | .illegalOperation code words | .protocolError code words
  | .timeExpired code words | .interrupted _ code words | .noFileOrDirectory _ code words
  | .invalidArgument _ code words | .permissionDenied _ code words
  | .resourceExhausted _ code words | .inappropriateType _ code words
  | .noSuchThing _ code words => some (code.toInt32.toInt.natAbs, words)
  | .unexpectedEof | .userError _ => none

/-- A failed call in the system's words. -/
def systemText (e : IO.Error) : String :=
  match systemCause? e with
  | some (code, words) => s!"{words} (os error {code})"
  | none => toString e

namespace Disk

/-- Why a call on the disk failed. -/
def faultOf (e : IO.Error) : DiskFault :=
  match systemCause? e with
  | some (2, _) => .notFound
  | some (5, _) => .device
  | some (17, _) => .alreadyExists
  | some (20, _) => .notADirectory
  | some (21, _) => .isADirectory
  | some (36, _) => .nameTooLong
  | _ => .other (systemText e)

/-- The outcome of a call on the disk. -/
def attempt {α : Type} (call : IO α) : IO (Except DiskFault α) := do
  match ← call.toBaseIO with
  | .ok a => return .ok a
  | .error e => return .error (faultOf e)

/-- The names in the directory at a path. -/
def namesIn (p : Path) : IO (List String) := do
  let entries ← (IO.FS.DirEntry.mk p.text "").root.readDir
  return entries.toList.map (·.fileName)

/-- Something is at a path, and it is or is not a directory. -/
def kindAt? (p : Path) : IO (Option Bool) := do
  match ← (IO.FS.DirEntry.mk p.text "").root.metadata.toBaseIO with
  | .ok found => return some (found.type matches .dir)
  | .error _ => return none

/-- Carries out a change. -/
def change (c : Change) : IO Unit :=
  match c with
  | .create p => IO.FS.writeBinFile p.text ByteArray.empty
  | .write p content => IO.FS.writeBinFile p.text ⟨content.toArray⟩
  | .rename source target => IO.FS.rename source.text target.text
  | .unlink p => IO.FS.removeFile p.text
  | .makeDirectory p => IO.FS.createDir p.text
  | .removeTree p => IO.FS.removeDirAll p.text

/-- Carries an action out on real files. -/
def Action.perform {α : Type} : Action α → IO α
  | done a => return a
  | read p next => do
    let r ← attempt (IO.FS.readBinFile p.text)
    (next (r.map (·.data.toList))).perform
  | list p next => do (next (← attempt (namesIn p))).perform
  | look p next => do (next (← kindAt? p)).perform
  | count p next => do
    let r ← attempt (namesIn p)
    (next (r.toOption.getD []).length).perform
  | change c next => do (next (← attempt (Disk.change c))).perform

end Disk

end RingStore
