import RingStore.Proofs.Journal.Contents
import Mathlib.Data.Nat.Find

/-!
# What opening a journal removes

Opening a journal counts its records up to the first number without one, and removes every file
whose name stands for a number from there on. Nothing else changes (`Opens`). A name can stand for a
number without being the one that the journal writes, so that files go which never were records; and
in no other way does opening touch what is not its own (`opening_removes`).
-/

namespace RingStore

open Disk Disk.Attempt

namespace Journal

variable {d e : Disk} {dir : Path} {j : Journal} {size : Nat} {name : String}

/-- The name stands for a number from `size` on, in whatever way it spells the number. -/
def Stale (size : Nat) (name : String) : Prop := ∃ i, Spells name i ∧ size ≤ i ∧ i < recordBound

/-- The name is the one that the journal gives to a record with a number from `size` on. -/
def Behind (size : Nat) (name : String) : Prop :=
  ∃ i, name = recordName i ∧ size ≤ i ∧ i < recordBound

theorem stale_iff : Stale size name ↔ ∃ i, indexOf? name = some i ∧ size ≤ i := by
  simp only [Stale, indexOf?_eq_some_iff]
  exact ⟨fun ⟨i, hname, hle, hlt⟩ => ⟨i, ⟨hname, hlt⟩, hle⟩,
    fun ⟨i, ⟨hname, hlt⟩, hle⟩ => ⟨i, hname, hle, hlt⟩⟩

theorem Behind.stale (h : Behind size name) : Stale size name := by
  obtain ⟨i, rfl, hle, hlt⟩ := h
  exact ⟨i, spells_recordName i, hle, hlt⟩

/-- A record before the end is not behind it, whatever else is. -/
theorem not_stale_recordName {i : Nat} (hi : i < size) : ¬ Stale size (recordName i) := by
  rintro ⟨j, hspells, hle, -⟩
  obtain rfl := (spells_recordName i).unique hspells
  omega

/-- Opening a journal of `size` records turns the one disk into the other. -/
structure Opens (dir : Path) (d : Disk) (size : Nat) (e : Disk) : Prop where
  /-- The records are those up to the first number without one. -/
  present : ∀ i < size, (d.at? (recordPath dir i)).isSome
  absent : d.at? (recordPath dir size) = none
  /-- What is taken for a record behind them is no directory, and goes. -/
  flat : ∀ name, Stale size name → d.at? (dir ++ [name]) ≠ some .directory
  removed : ∀ name, Stale size name → e.at? (dir ++ [name]) = none
  /-- All else in the directory stays. -/
  kept : ∀ name, ¬ Stale size name → e.at? (dir ++ [name]) = d.at? (dir ++ [name])
  /-- The directory is there in the end, and nothing changes elsewhere. -/
  way : ∀ q, q <+: dir → e.at? q = some .directory
  elsewhere : ∀ q, ¬ q <+: dir → q.dropLast ≠ dir → e.at? q = d.at? q

/-- Opening leaves alone what is not a record of the journal's from its end on exactly if everything
in the directory that is taken for one is one. -/
theorem Opens.frame_iff (h : Opens dir d size e) :
    (∀ name, ¬ Behind size name → e.at? (dir ++ [name]) = d.at? (dir ++ [name])) ↔
      ∀ name, (d.at? (dir ++ [name])).isSome → Stale size name → Behind size name := by
  constructor
  · intro hframe name hsome hstale
    by_contra hbehind
    rw [← hframe name hbehind, h.removed name hstale] at hsome
    cases hsome
  · intro howned name hbehind
    by_cases hstale : Stale size name
    · have hnone : d.at? (dir ++ [name]) = none :=
        Option.not_isSome_iff_eq_none.1 fun hsome => hbehind (howned name hsome hstale)
      rw [h.removed name hstale, hnone]
    · exact h.kept name hstale

/-- There is a first number without a record, for there are finitely many names. -/
theorem exists_end (dir : Path) (d : Disk) :
    ∃ n, (∀ i < n, (d.at? (recordPath dir i)).isSome) ∧ d.at? (recordPath dir n) = none := by
  have hend : ∃ n, d.at? (recordPath dir n) = none := by
    by_contra hall
    have hfull : ∀ i < (d.names dir).length + 1, (d.at? (recordPath dir i)).isSome := fun i _ =>
      Option.isSome_iff_ne_none.2 fun hnone => hall ⟨i, hnone⟩
    have hle := le_length_names recordName recordName_injective hfull
    omega
  exact ⟨Nat.find hend, fun i hi => Option.isSome_iff_ne_none.2 (Nat.find_min hend hi),
    Nat.find_spec hend⟩

theorem Pruned.at?_append_of_not_stale (h : Pruned dir size d e) (hname : ¬ Stale size name) :
    e.at? (dir ++ [name]) = d.at? (dir ++ [name]) := by
  rcases h (dir ++ [name]) with hsame | ⟨-, name', hpath, i, hi, hle⟩
  · exact hsame
  · obtain rfl : name = name' := List.singleton_inj.1 (List.append_cancel_left hpath)
    exact absurd (stale_iff.2 ⟨i, hi, hle⟩) hname

/-- Opening ends with a fault, or has done what it should. -/
theorem ensures_openIn_opens (hd : d.Proper) (hclear : d.Clear dir)
    (hpresent : ∀ i < size, (d.at? (recordPath dir i)).isSome)
    (habsent : d.at? (recordPath dir size) = none) :
    (openIn dir).Ensures (fun _ => True) (fun r e =>
      (r = .ok ⟨dir, size, 0⟩ ∧ Opens dir d size e) ∨ (∃ f, r = .error f) ∧ Obstructed dir size d)
      d := by
  refine (ensures_opens hd hclear hpresent habsent).mono_proper hd (fun _ _ _ => trivial) ?_
  rintro r e he ⟨c, -, hopened, hpruned⟩ (⟨rfl, hdir, hgone⟩ | hobstructed)
  · have hstale : ∀ name, Stale size name → Gone dir d e name := by
      intro name hname
      obtain ⟨i, hi, hle⟩ := stale_iff.1 hname
      exact hgone name i hi hle
    refine .inl ⟨rfl, hpresent, habsent, fun name hname => (hstale name hname).1,
      fun name hname => (hstale name hname).2, fun name hname => ?_,
      fun q hq => he.at?_above hdir hq, fun q hq hne => ?_⟩
    · rw [hpruned.at?_append_of_not_stale hname, hopened.at?_append]
    · rw [hpruned.at?_of_dropLast_ne hne, hopened.at?_elsewhere hq]
  · exact .inr hobstructed

/-- Where nothing has a name that is taken for that of a record behind the last one, nothing
goes. -/
theorem ensures_openIn_same (hd : d.Proper) (hclear : d.Clear dir)
    (hpresent : ∀ i < size, (d.at? (recordPath dir i)).isSome)
    (habsent : d.at? (recordPath dir size) = none)
    (hnone : ∀ name, Stale size name → d.at? (dir ++ [name]) = none) :
    (openIn dir).Ensures (fun _ => True) (fun r e => r = .ok ⟨dir, size, 0⟩ ∧ e.Proper ∧
      e.at? dir = some .directory ∧ ∀ name, e.at? (dir ++ [name]) = d.at? (dir ++ [name])) d := by
  refine (ensures_openIn_opens hd hclear hpresent habsent).mono_proper hd (fun _ _ _ => trivial) ?_
  rintro r e he - (⟨rfl, hopens⟩ | ⟨-, name, i, hi, hle, hnode⟩)
  · refine ⟨rfl, he, hopens.way dir List.prefix_rfl, fun name => ?_⟩
    by_cases hstale : Stale size name
    · rw [hopens.removed name hstale, hnone name hstale]
    · exact hopens.kept name hstale
  · rw [hnone name (stale_iff.2 ⟨i, hi, hle⟩)] at hnode
    cases hnode

/-- Whatever is in its directory, a journal that is opened counts the records up to the first number
without one, and these records stay; all files go that it would give to records from there on; and
whatever is no such file stays too, exactly if the directory holds no name that spells one of these
numbers in another way. -/
theorem opening_removes (hd : d.Proper) (hopen : (openIn dir).run.run d = (.ok j, e)) :
    j = ⟨dir, j.size, 0⟩ ∧ Opens dir d j.size e ∧
      (∀ i < j.size, e.at? (recordPath dir i) = d.at? (recordPath dir i)) ∧
      (∀ name, Behind j.size name → e.at? (dir ++ [name]) = none) ∧
      ((∀ name, ¬ Behind j.size name → e.at? (dir ++ [name]) = d.at? (dir ++ [name])) ↔
        ∀ name, (d.at? (dir ++ [name])).isSome → Stale j.size name → Behind j.size name) := by
  by_cases hclear : d.Clear dir
  · obtain ⟨n, hpresent, habsent⟩ := exists_end dir d
    obtain ⟨-, hafter⟩ := ensures_openIn_opens hd hclear hpresent habsent
    rw [hopen] at hafter
    rcases hafter with ⟨hj, hopens⟩ | ⟨⟨f, hf⟩, -⟩
    · obtain rfl := Except.ok.inj hj
      exact ⟨rfl, hopens, fun i hi => hopens.kept _ (not_stale_recordName hi),
        fun name hname => hopens.removed name hname.stale, hopens.frame_iff⟩
    · cases hf
  · -- where a file stands on the way nothing is opened
    obtain ⟨f, hblocked⟩ := answers_ensureDirectory_blocked hd hclear
    have hfail : (openIn dir).run.run d = (.error f, d) := hblocked.bind_error.2
    rw [hopen] at hfail
    cases hfail

/-- A journal's directory with a record, one more behind a gap, and a file with another name. -/
def littered (name : String) : Disk :=
  (((empty.set ["log"] .directory).set ["log", "0.entry"] (.file [1])).set ["log", "3.entry"]
    (.file [2])).set ["log", name] (.file [3])

/-- Behind a gap the record goes, and a file that is none stays. -/
theorem opening_removes_behind_gap : ∃ e,
    (openIn ["log"]).run.run (littered "notes.txt") = (.ok ⟨["log"], 1, 0⟩, e) ∧
      e.at? ["log", "3.entry"] = none ∧ ∀ name, ¬ Behind 1 name →
        e.at? ["log", name] = (littered "notes.txt").at? ["log", name] := by
  have hlog : (empty.set ["log"] .directory).Proper := proper_empty.set (by decide) rfl (by decide)
  have hfirst : ((empty.set ["log"] .directory).set ["log", "0.entry"] (.file [1])).Proper :=
    hlog.set (by decide) rfl (by decide)
  have hd : (littered "notes.txt").Proper :=
    (hfirst.set (by decide) rfl (by decide)).set (by decide) rfl (by decide)
  have hopen : (openIn ["log"]).run.run (littered "notes.txt") = (.ok ⟨["log"], 1, 0⟩,
      ((empty.set ["log"] .directory).set ["log", "0.entry"] (.file [1])).set ["log", "notes.txt"]
        (.file [3])) := by decide +kernel
  obtain ⟨-, -, -, hgone, hframe⟩ := opening_removes hd hopen
  refine ⟨_, hopen, hgone "3.entry" ⟨3, rfl, by decide, by decide⟩,
    hframe.2 fun name hsome hstale => ?_⟩
  have hname : name = "notes.txt" ∨ name = "3.entry" ∨ name = "0.entry" := by
    simpa [littered, names, Disk.set, empty] using mem_names.2 hsome
  obtain ⟨i, hi, hle⟩ : ∃ i, indexOf? name = some i ∧ 1 ≤ i := stale_iff.1 hstale
  rcases hname with rfl | rfl | rfl
  · exact absurd hi (by rw [show indexOf? "notes.txt" = none by decide +kernel]; simp)
  · exact ⟨3, rfl, by decide, by decide⟩
  · rw [show indexOf? "0.entry" = some 0 by decide +kernel, Option.some.injEq] at hi
    omega

/-- A file that was no record goes, for its name spells a number with zeros in front. -/
theorem opening_removes_zeros_in_front : ∃ e,
    (openIn ["log"]).run.run (littered "007.entry") = (.ok ⟨["log"], 1, 0⟩, e) ∧
      ¬ Behind 1 "007.entry" ∧
      (littered "007.entry").at? ["log", "007.entry"] = some (.file [3]) ∧
      e.at? ["log", "007.entry"] = none := by
  refine ⟨(empty.set ["log"] .directory).set ["log", "0.entry"] (.file [1]), by decide +kernel, ?_,
    rfl, rfl⟩
  -- the only number that the name spells is 7, and its record has another name
  rintro ⟨i, hname, -, hlt⟩
  have hseven : indexOf? "007.entry" = some 7 := by decide +kernel
  rw [hname, indexOf?_recordName hlt, Option.some.injEq] at hseven
  rw [hseven] at hname
  exact absurd hname (by decide)

end Journal

end RingStore
