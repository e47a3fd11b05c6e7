import RingStore.Proofs.Disk.Faltering

/-!
# Actions that are cut off

An action can be cut off between any two of its calls, and calls on files may fail besides. A write
that is cut off or fails may have given its file other bytes; any other call that fails changes
nothing. `Action.Breaks` tells on which disks an action can be cut off or end then. An action that
is late and stops when a call fails does all that it does in one step: wherever it breaks, nothing
differs but drafts, or it has done all of it (`Action.Breaks.alike_or_done`).
-/

namespace RingStore

namespace Disk

open Attempt

variable {d d' e : Disk} {p q dir : Path} {c : Change}

/-! ## Disks that differ in drafts -/

/-- Nothing differs but drafts in a directory, and none of them is a directory on one of the disks
only. -/
structure Alike (dir : Path) (d e : Disk) : Prop where
  same : ∀ q, (∀ stem, q ≠ draftPath dir stem) → e.at? q = d.at? q
  directory_iff : ∀ q, e.at? q = some .directory ↔ d.at? q = some .directory

namespace Alike

@[refl]
theorem refl (dir : Path) (d : Disk) : Alike dir d d := ⟨fun _ _ => rfl, fun _ => Iff.rfl⟩

theorem trans (h : Alike dir d d') (h' : Alike dir d' e) : Alike dir d e :=
  ⟨fun q hq => (h'.same q hq).trans (h.same q hq),
    fun q => (h'.directory_iff q).trans (h.directory_iff q)⟩

/-- Disks that are alike have the same entries. -/
theorem at?_entryPath (h : Alike dir d e) (dir' : Path) (stem : String) :
    e.at? (entryPath dir' stem) = d.at? (entryPath dir' stem) :=
  h.same _ fun _ => entryPath_ne_draftPath

theorem at?_dir (h : Alike dir d e) : e.at? dir = d.at? dir :=
  h.same _ fun stem => by simp [draftPath]

end Alike

/-- A change of files makes no directory and takes none away. -/
theorem Change.OnFile.directory_iff (hc : c.OnFile) (h : d.apply c = .ok e) (q : Path) :
    e.at? q = some .directory ↔ d.at? q = some .directory := by
  by_cases hq : c.Touches q
  · cases c with
    | create p =>
      obtain rfl : q = p := hq
      obtain ⟨hp, -, rfl⟩ := apply_create_eq_ok h
      have hnode : d.at? q ≠ some .directory := fun hdir => by simp [apply, hdir] at h
      rw [at?_set hp, if_pos rfl]
      simp [hnode]
    | write p content =>
      obtain rfl : q = p := hq
      obtain ⟨⟨old, hold⟩, rfl⟩ := apply_write_eq_ok h
      rw [at?_set (ne_nil_of_file hold), if_pos rfl, hold]
      simp
    | rename source target =>
      obtain ⟨content, hs, ht, -, rfl⟩ := apply_rename_eq_ok h
      rw [at?_rename (ne_nil_of_file hs) (ne_nil_of_at?_ne ht)]
      by_cases hqt : q = target
      · rw [if_pos hqt, hqt]
        simp [ht]
      · obtain rfl : q = source := hq.resolve_right hqt
        rw [if_neg hqt, if_pos rfl, hs]
        simp
    | unlink p =>
      obtain rfl : q = p := hq
      obtain ⟨⟨old, hold⟩, rfl⟩ := apply_unlink_eq_ok h
      rw [at?_erase (ne_nil_of_file hold), if_pos rfl, hold]
      simp
    | makeDirectory p => exact hc.elim
    | removeTree p => exact hc.elim
  · rw [at?_of_apply h hq]

/-- A change of drafts. -/
theorem Alike.of_apply (hc : c.OnFile) (hdrafts : ∀ q, c.Touches q → ∃ stem, q = draftPath dir stem)
    (h : d.apply c = .ok e) : Alike dir d e where
  same q hq := at?_of_apply h fun htouch => by
    obtain ⟨stem, rfl⟩ := hdrafts q htouch
    exact hq stem rfl
  directory_iff := hc.directory_iff h

/-- What a call on a file that failed can leave: nothing of it, or other bytes if it was a write. -/
inductive Change.MayTear (d : Disk) : Change → Disk → Prop
  | unmade {c : Change} (hc : c.OnFile) : MayTear d c d
  | torn {p : Path} {content other : Bytes} {e : Disk} (h : d.apply (.write p other) = .ok e) :
    MayTear d (.write p content) e

namespace Action

variable {α β : Type}

/-- Actions may be cut off and calls on files may fail, with no other trace than of writes. -/
abbrev breaking : Mishaps := ⟨fun _ => False, Change.MayTear, True⟩

/-- The action, where calls on files may fail, can be cut off on this disk, or end on it with an
answer. Who is cut off has no answer. -/
abbrev Breaks (x : Action α) (d : Disk) (o : Option α) (e : Disk) : Prop := Fares breaking x d o e

/-- A write is cut off. -/
theorem breaks_torn {content other : Bytes} {next : Except DiskFault Unit → Action α}
    (h : d.apply (.write p other) = .ok e) : Breaks (change (.write p content) next) d none e := by
  have hfault : DiskFault.device ≠ .notFound := by simp
  exact .changeFails hfault (.torn h) (.cut trivial)

/-- An action where calls fail breaks when it ends. -/
theorem Falters.breaks {x : Action α} {a : α} (h : Falters x d a e) : Breaks x d (some a) e :=
  Fares.mono h ⟨fun _ => id, fun _ _ _ hc => hc.2 ▸ .unmade hc.1, False.elim⟩

/-- Wherever an action breaks, it leaves a proper disk. -/
theorem Breaks.proper {x : Action α} {o : Option α} (h : Breaks x d o e) (hd : d.Proper) :
    e.Proper := by
  refine Fares.proper h (fun _ _ _ hc hd => ?_) hd
  cases hc with
  | unmade _ => exact hd
  | torn hc => exact hd.apply hc

/-! ## Actions on files -/

/-- The action changes nothing but files. -/
def FilesOnly : Action α → Prop
  | done _ => True
  | read _ next => ∀ r, (next r).FilesOnly
  | list _ next => ∀ r, (next r).FilesOnly
  | look _ next => ∀ r, (next r).FilesOnly
  | count _ next => ∀ n, (next n).FilesOnly
  | change c next => c.OnFile ∧ ∀ r, (next r).FilesOnly

theorem FilesOnly.bind {x : Action α} {f : α → Action β} (hx : x.FilesOnly)
    (hf : ∀ a, (f a).FilesOnly) : (x.bind f).FilesOnly := by
  induction x with
  | done a => exact hf a
  | read p next ih | list p next ih | look p next ih | count p next ih => exact fun r => ih r (hx r)
  | change c next ih => exact ⟨hx.1, fun r => ih r (hx.2 r)⟩

theorem exists_touches (c : Change) : ∃ q, c.Touches q := by
  cases c with
  | create p | write p _ | unlink p | makeDirectory p => exact ⟨p, rfl⟩
  | rename source target => exact ⟨source, .inl rfl⟩
  | removeTree p => exact ⟨p, List.prefix_rfl⟩

/-- An action that is within no path changes nothing. -/
theorem Within.filesOnly {x : Action α} (hx : x.Within fun _ => False) : x.FilesOnly := by
  induction x with
  | done a => exact trivial
  | read p next ih | list p next ih | look p next ih | count p next ih => exact fun r => ih r (hx r)
  | change c next ih =>
    obtain ⟨q, hq⟩ := exists_touches c
    exact (hx.1 q hq).elim

theorem Within.answers {x : Action α} (hx : x.Within fun _ => False) (d : Disk) :
    x.Answers d (x.run d).1 := by
  induction x with
  | done a => exact answers_done a d
  | read p next ih | list p next ih | look p next ih | count p next ih => exact ih _ (hx _)
  | change c next ih =>
    obtain ⟨q, hq⟩ := exists_touches c
    exact (hx.1 q hq).elim

/-- An action that only looks leaves the disk as it is, failing or not. -/
theorem Within.eq_of_breaks {x : Action α} {o : Option α} (hx : x.Within fun _ => False)
    (h : Breaks x d o e) : e = d := by
  induction h with
  | cut _ | done => rfl
  | read _ ih | readFails _ _ ih | list _ ih | listFails _ _ ih | look _ ih | lookFails _ _ ih
  | count _ ih => exact ih (hx _)
  | @change c _ _ _ _ _ _ _ | @refused c _ _ _ _ _ _ _ | @changeFails c _ _ _ _ _ _ _ _ _ =>
    obtain ⟨q, hq⟩ := exists_touches c
    exact (hx.1 q hq).elim

/-! ## Actions that do all in one step -/

/-- The path is that of a finished file in the directory or of its draft. -/
def Filed (dir q : Path) : Prop := ∃ stem, q = entryPath dir stem ∨ q = draftPath dir stem

/-- Nothing but drafts in the directory is changed before the change that the action ends with,
which is one of files in the directory; and the action is over when a call fails. -/
structure OneStep (dir : Path) (x : Action (Except Fault α)) : Prop where
  stops : x.Stops (· = dir)
  late : x.Late
  within : x.Within (Filed dir)
  filesOnly : x.FilesOnly

/-- A filed path that is not settled is a draft. -/
theorem exists_draft (hq : Filed dir q) (hdraft : ¬ Settled q) :
    ∃ stem, q = draftPath dir stem := by
  obtain ⟨stem, rfl | rfl⟩ := hq
  · exact absurd (settled_entryPath dir stem) hdraft
  · exact ⟨stem, rfl⟩

namespace OneStep

variable {x : Action (Except Fault α)}

theorem read {next : Except DiskFault Bytes → Action (Except Fault α)}
    (hx : OneStep dir (Action.read p next)) (r : Except DiskFault Bytes) : OneStep dir (next r) :=
  ⟨hx.stops.2 r, hx.late r, hx.within r, hx.filesOnly r⟩

theorem list {next : Except DiskFault (List String) → Action (Except Fault α)}
    (hx : OneStep dir (Action.list p next)) (r : Except DiskFault (List String)) :
    OneStep dir (next r) :=
  ⟨hx.stops.2 r, hx.late r, hx.within r, hx.filesOnly r⟩

theorem look {next : Option Bool → Action (Except Fault α)} (hx : OneStep dir (Action.look p next))
    (r : Option Bool) : OneStep dir (next r) :=
  ⟨hx.stops.2 r, hx.late r, hx.within r, hx.filesOnly r⟩

theorem count {next : Nat → Action (Except Fault α)} (hx : OneStep dir (Action.count p next))
    (n : Nat) : OneStep dir (next n) :=
  ⟨hx.stops n, hx.late n, hx.within n, hx.filesOnly n⟩

variable {next : Except DiskFault Unit → Action (Except Fault α)}

theorem change (hx : OneStep dir (Action.change c next)) (r : Except DiskFault Unit) :
    OneStep dir (next r) :=
  ⟨hx.stops.2.2 r, hx.late.1 r, hx.within.2 r, hx.filesOnly.2 r⟩

/-- A change is one of drafts only, or the action ends with it. -/
theorem alike_or_ends (hx : OneStep dir (Action.change c next)) (hc : d.apply c = .ok d') :
    Alike dir d d' ∨ ∃ a, next (.ok ()) = done (.ok a) :=
  hx.late.2.imp_left fun hdrafts => .of_apply hx.filesOnly.1
    (fun q hq => exists_draft (hx.within.1 q hq) (hdrafts q hq)) hc

/-- Whatever a call that fails leaves, it is one of a draft. -/
theorem alike_of_mayTear (hx : OneStep dir (Action.change c next)) (hc : c.MayTear d d') :
    Alike dir d d' := by
  cases hc with
  | unmade _ => exact .refl _ _
  | @torn p content other _ hc =>
    have hfile : (Change.write p other).OnFile := trivial
    refine .of_apply hfile (fun q hq => ?_) hc
    obtain rfl : q = p := hq
    obtain ⟨dir', stem, hp⟩ := hx.stops.2.1 _ _ rfl
    exact exists_draft (hx.within.1 _ rfl) fun hsettled => hsettled dir' stem hp

end OneStep

/-- An action that has failed already does nothing more. -/
theorem Failed.breaks {x : Action (Except Fault α)} {o : Option (Except Fault α)} (hx : x.Failed)
    (h : Breaks x d o e) : e = d := by
  obtain ⟨f, -, rfl⟩ := hx
  exact disk_of_fares_done h

/-- Wherever an action breaks that does all in one step, nothing differs but drafts, or it has done
all that it does. -/
theorem Breaks.alike_or_done {x : Action (Except Fault α)} {o : Option (Except Fault α)}
    (hx : OneStep dir x) (h : Breaks x d o e) : Alike dir d e ∨ e = (x.run d).2 := by
  induction h with
  | cut _ | done => exact .inl (.refl _ _)
  | read _ ih => exact ih (hx.read _)
  | list _ ih => exact ih (hx.list _)
  | look _ ih => exact ih (hx.look _)
  | lookFails hp _ _ => exact hp.elim
  | count _ ih => exact ih (hx.count _)
  | @readFails p next d e o f hf h _ | @listFails p next d e o f hf h _ =>
    obtain rfl := (hx.stops.1 f hf).breaks h
    exact .inl (.refl _ _)
  | @changeFails c next d d' e o f hf hc h _ =>
    obtain rfl := (hx.stops.1 f hf).breaks h
    exact .inl (hx.alike_of_mayTear hc)
  | refused hc _ ih =>
    rw [run, hc]
    exact ih (hx.change _)
  | change hc h ih =>
    rw [run, hc]
    rcases hx.alike_or_ends hc with halike | ⟨a, hnext⟩
    · exact (ih (hx.change _)).imp_left halike.trans
    · -- the action ends with this change
      rw [hnext] at h ⊢
      exact .inr (disk_of_fares_done h)

/-- Where it ends with a fault, nothing differs but drafts. -/
theorem Breaks.alike_of_fault {x : Action (Except Fault α)} {f : Fault} (hx : OneStep dir x)
    (h : Breaks x d (some (.error f)) e) : Alike dir d e := by
  unfold Breaks at h
  generalize ho : some (.error f : Except Fault α) = o at h
  induction h with
  | cut _ | done => exact .refl _ _
  | read _ ih | readFails _ _ ih => exact ih (hx.read _) ho
  | list _ ih | listFails _ _ ih => exact ih (hx.list _) ho
  | look _ ih | lookFails _ _ ih => exact ih (hx.look _) ho
  | count _ ih => exact ih (hx.count _) ho
  | refused _ _ ih => exact ih (hx.change _) ho
  | changeFails _ hc _ ih => exact (hx.alike_of_mayTear hc).trans (ih (hx.change _) ho)
  | change hc h ih =>
    rcases hx.alike_or_ends hc with halike | ⟨a, hnext⟩
    · exact halike.trans (ih (hx.change _) ho)
    · subst ho
      rw [hnext] at h
      cases (fares_done h).1

/-- Where it ends without a fault, it has done all that it does. -/
theorem Breaks.run_of_ok {x : Action (Except Fault α)} {a : α} (hx : OneStep dir x)
    (h : Breaks x d (some (.ok a)) e) : x.run d = (.ok a, e) := by
  unfold Breaks at h
  generalize ho : some (.ok a : Except Fault α) = o at h
  have hfailed : ∀ {y : Action (Except Fault α)} {c : Disk}, y.Failed → ¬ Breaks y c o e := by
    rintro _ c ⟨f, -, rfl⟩ hend
    subst ho
    cases (fares_done hend).1
  induction h with
  | cut _ => cases ho
  | done =>
    cases ho
    rfl
  | read _ ih => exact ih (hx.read _) ho hfailed
  | list _ ih => exact ih (hx.list _) ho hfailed
  | look _ ih => exact ih (hx.look _) ho hfailed
  | lookFails hp _ _ => exact hp.elim
  | count _ ih => exact ih (hx.count _) ho hfailed
  | @readFails p next d e o f hf h _ | @listFails p next d e o f hf h _ =>
    exact absurd h (hfailed (hx.stops.1 f hf))
  | @changeFails c next d d' e o f hf hc h _ => exact absurd h (hfailed (hx.stops.1 f hf))
  | refused hc _ ih =>
    rw [run, hc]
    exact ih (hx.change _) ho hfailed
  | change hc _ ih =>
    rw [run, hc]
    exact ih (hx.change _) ho hfailed

end Action

namespace Attempt

variable {α β : Type}

/-- The attempt changes nothing but files. -/
def FilesOnly (x : Attempt α) : Prop := Action.FilesOnly x.run

theorem FilesOnly.bind {x : Attempt α} {f : α → Attempt β} (hx : x.FilesOnly)
    (hf : ∀ a, (f a).FilesOnly) : (x >>= f).FilesOnly := by
  refine Action.FilesOnly.bind hx ?_
  rintro (g | a)
  · exact trivial
  · exact hf a

theorem Within.filesOnly {x : Attempt α} (hx : x.Within fun _ => False) : x.FilesOnly :=
  Action.Within.filesOnly hx

theorem filesOnly_change (hc : c.OnFile) : (change c).FilesOnly := ⟨hc, fun _ => trivial⟩

theorem filesOnly_writeEntry (dir : Path) (stem : String) (content : Bytes) :
    (writeEntry dir stem content).FilesOnly :=
  FilesOnly.bind (filesOnly_change trivial) fun _ =>
    FilesOnly.bind (filesOnly_change trivial) fun _ => filesOnly_change trivial

end Attempt

end Disk

end RingStore
