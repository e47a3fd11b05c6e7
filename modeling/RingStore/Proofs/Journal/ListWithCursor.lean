import RingStore.Proofs.Journal.Opening
import Mathlib.Logic.Function.Basic

/-!
# A journal is a list with a cursor

A journal opened on an empty directory answers every call as a list of records with a cursor does,
through any mixture of appending, reading, clearing and opening again (`performs_as_list`). After
every call its directory holds one file for each record of the list, under the record's number, and
nothing else (`Sole`).
-/

namespace RingStore

open Disk Disk.Attempt

namespace Journal

variable {d e : Disk} {dir : Path} {f : Nat → Option Record} {k : Nat} {name : String}

/-! ## Calls -/

/-- A list of records, and the number of the one that is read next. -/
structure Reel where
  /-- The records. -/
  records : List Record
  /-- The number of the record that is read next. -/
  cursor : Nat
  deriving DecidableEq, Repr

/-- The journal in a directory that stands for a list with a cursor. -/
def Reel.journal (dir : Path) (m : Reel) : Journal := ⟨dir, m.records.length, m.cursor⟩

/-- A call on a journal. -/
inductive Call
  | append (kind : Record.Kind) (key? value? : Option String)
  | clear
  | rewind
  | hasNext
  | next
  /-- The record with a number is read, wherever the cursor is. -/
  | load (index : Nat)
  | size
  | isEmpty
  /-- The journal is opened again. -/
  | reopen
  deriving DecidableEq, Repr

/-- What a call tells. -/
inductive Answer
  | done
  | record (r : Record)
  | next (r? : Option Record)
  | flag (b : Bool)
  | number (n : Nat)
  deriving DecidableEq, Repr

namespace Call

/-- Carries a call out: what it tells, and the journal to go on with. -/
def attempt (j : Journal) : Call → Attempt (Answer × Journal)
  | append kind key? value? => return (.done, ← j.append (.create kind key? value?))
  | clear => return (.done, ← j.clear)
  | rewind => return (.done, j.rewind)
  | hasNext => return (.flag j.hasNext, j)
  | next => do
    let (r?, j) ← j.next
    return (.next r?, j)
  | load index => return (.record (← j.load index), j)
  | size => return (.number j.size, j)
  | isEmpty => return (.flag j.isEmpty, j)
  | reopen => return (.done, ← openIn j.dir)

/-- Carries a call out: its answer, and the journal to go on with, which is the same after a
fault. -/
def perform (j : Journal) (call : Call) : Action (Except Fault Answer × Journal) := do
  match ← (call.attempt j).run with
  | .ok (answer, j) => return (.ok answer, j)
  | .error f => return (.error f, j)

/-- What a list with a cursor answers to a call, and what it is afterwards. -/
def onReel (m : Reel) : Call → Except Fault Answer × Reel
  | append kind key? value? => (.ok .done, ⟨m.records ++ [.create kind key? value?], m.cursor⟩)
  | clear => (.ok .done, ⟨[], 0⟩)
  | rewind => (.ok .done, ⟨m.records, 0⟩)
  | hasNext => (.ok (.flag (m.cursor < m.records.length)), m)
  | next =>
    match m.records[m.cursor]? with
    | some r => (.ok (.next (some r)), ⟨m.records, m.cursor + 1⟩)
    | none => (.ok (.next none), m)
  | load index =>
    match m.records[index]? with
    | some r => (.ok (.record r), m)
    | none => (.error (.io (.disk .notFound)), m)
  | size => (.ok (.number m.records.length), m)
  | isEmpty => (.ok (.flag m.records.isEmpty), m)
  | reopen => (.ok .done, ⟨m.records, 0⟩)

/-- Carries calls out one after the other. -/
def performAll (j : Journal) : List Call → Action (List (Except Fault Answer) × Journal)
  | [] => return ([], j)
  | call :: calls => do
    let (answer, j) ← call.perform j
    let (answers, j) ← performAll j calls
    return (answer :: answers, j)

/-- What a list with a cursor answers to calls, and what it is afterwards. -/
def allOnReel (m : Reel) : List Call → List (Except Fault Answer) × Reel
  | [] => ([], m)
  | call :: calls =>
    ((call.onReel m).1 :: (allOnReel (call.onReel m).2 calls).1,
     (allOnReel (call.onReel m).2 calls).2)

/-- The data of a new record are not longer than eight bytes can count. No memory holds longer
ones. -/
def Short : Call → Prop
  | append kind key? value? => (Record.create kind key? value?).data.length < Nat.pow 256 8
  | _ => True

instance : DecidablePred Short
  | append .. => inferInstanceAs (Decidable (_ < _))
  | clear | rewind | hasNext | next | load _ | size | isEmpty | reopen => .isTrue trivial

end Call

/-! ## The files of a journal -/

/-- The directory holds records under their numbers, and nothing else. -/
structure Sole (dir : Path) (f : Nat → Option Record) (d : Disk) : Prop where
  proper : d.Proper
  directory : d.at? dir = some .directory
  holds : ∀ i, d.at? (recordPath dir i) = (f i).map fun r => .file (Wire.encode r)
  named : ∀ name, (d.at? (dir ++ [name])).isSome → ∃ i, name = recordName i

theorem Sole.flat (h : Sole dir f d) (name : String) : d.at? (dir ++ [name]) ≠ some .directory := by
  intro hnode
  obtain ⟨i, rfl⟩ := h.named name (by rw [hnode]; rfl)
  rw [← recordPath_eq, h.holds] at hnode
  cases hf : f i <;> simp [hf] at hnode

/-- The names in the directory are those of the records. -/
theorem Sole.mem_names_iff (h : Sole dir f d) :
    name ∈ d.names dir ↔ ∃ i, (f i).isSome ∧ name = recordName i := by
  rw [mem_names]
  constructor
  · intro hsome
    obtain ⟨i, rfl⟩ := h.named name hsome
    rw [← recordPath_eq, h.holds, Option.isSome_map] at hsome
    exact ⟨i, hsome, rfl⟩
  · rintro ⟨i, hsome, rfl⟩
    rwa [← recordPath_eq, h.holds, Option.isSome_map]

theorem Sole.mem_names_iff_lt {rs : List Record} (h : Sole dir (rs[·]?) d) :
    name ∈ d.names dir ↔ ∃ i < rs.length, name = recordName i := by
  rw [h.mem_names_iff]
  simp

/-- One name in the directory has another record, or none. -/
theorem Sole.update (h : Sole dir f d) (r? : Option Record) (he : e.Proper)
    (hdir : e.at? dir = some .directory)
    (hat : ∀ name, e.at? (dir ++ [name]) =
      if name = recordName k then r?.map fun r => .file (Wire.encode r)
      else d.at? (dir ++ [name])) :
    Sole dir (Function.update f k r?) e where
  proper := he
  directory := hdir
  holds := by
    intro i
    rw [recordPath_eq, hat, Function.update_apply]
    by_cases hi : i = k
    · rw [hi, if_pos rfl, if_pos rfl]
    · rw [if_neg fun heq => hi (recordName_injective heq), if_neg hi]
      exact h.holds i
  named := by
    intro name hname
    by_cases heq : name = recordName k
    · exact ⟨k, heq⟩
    · rw [hat, if_neg heq] at hname
      exact h.named name hname

theorem Sole.of_same (h : Sole dir f d) (he : e.Proper) (hdir : e.at? dir = some .directory)
    (hat : ∀ name, e.at? (dir ++ [name]) = d.at? (dir ++ [name])) : Sole dir f e where
  proper := he
  directory := hdir
  holds := fun i => by
    rw [recordPath_eq, hat]
    exact h.holds i
  named := fun name hname => h.named name (by rwa [← hat])

/-- A directory with the files of a list alone holds the list. -/
theorem Sole.holdsUpTo {rs : List Record} (h : Sole dir (rs[·]?) d) (bound : Nat) :
    Holds dir rs bound d := fun i _ => h.holds i

/-! ## Appending, clearing and opening again -/

/-- A record that is written is there under its number. -/
theorem Sole.written (h : Sole dir f d) (he : e.Proper) {r : Record}
    (hwritten : Written d dir (toString k) (Wire.encode r) e) :
    Sole dir (Function.update f k (some r)) e := by
  refine h.update (some r) he ?_ fun name => ?_
  · rw [hwritten, if_neg (by simp [entryPath]), if_neg (by simp [draftPath]), h.directory]
  · rw [hwritten]
    by_cases hname : name = recordName k
    · rw [if_pos hname, if_pos (by rw [hname]; rfl)]
      rfl
    · have hother : dir ++ [name] ≠ entryPath dir (toString k) := fun heq =>
        hname (List.singleton_inj.1 (List.append_cancel_left heq))
      rw [if_neg hname, if_neg hother]
      split
      · -- no record has the name of a draft
        rename_i hdraft
        rw [eq_comm, ← Option.not_isSome_iff_eq_none]
        intro hsome
        obtain ⟨i, rfl⟩ := h.named name hsome
        exact entryPath_ne_draftPath hdraft
      · rfl

/-- Appending a record adds its file, and no other. -/
theorem Sole.ensures_append {rs : List Record} (h : Sole dir (rs[·]?) d) (r : Record)
    (cursor : Nat) :
    (append ⟨dir, rs.length, cursor⟩ r).Ensures (fun _ => True)
      (fun j e => j = .ok ⟨dir, rs.length + 1, cursor⟩ ∧ Sole dir ((rs ++ [r])[·]?) e) d := by
  have hdraft : d.at? (draftPath dir (toString rs.length)) ≠ some .directory := h.flat _
  have hentry : d.at? (entryPath dir (toString rs.length)) ≠ some .directory := h.flat _
  have hwrite := ensures_writeEntry (Wire.encode r) h.directory hdraft hentry
  have hconcat : Function.update (rs[·]?) rs.length (some r) = ((rs ++ [r])[·]?) := by
    funext i
    rw [Function.update_apply]
    grind
  refine Ensures.bind_ok (K := Sole dir ((rs ++ [r])[·]?)) (hwrite.mono_proper h.proper
    (fun _ _ _ => trivial) fun a e he _ hQ => ⟨hQ.1, hconcat ▸ h.written he hQ.2⟩) ?_
  intro e _ hafter
  exact (answers_pure _ e).ensures trivial ⟨rfl, hafter⟩

/-- The records from a number on go, one after the other. -/
theorem Sole.ensures_removeRange (count index : Nat) (h : Sole dir f d) :
    (removeRange dir index count).Ensures (fun _ => True) (fun r e => r = .ok () ∧
      Sole dir (fun i => if index ≤ i ∧ i < index + count then none else f i) e) d := by
  induction count generalizing index f d with
  | zero =>
    refine (answers_pure () d).ensures trivial ⟨rfl, ?_⟩
    have hsame : (fun i => if index ≤ i ∧ i < index + 0 then none else f i) = f := by
      funext i
      rw [if_neg (by omega)]
    rwa [hsame]
  | succ count ih =>
    have hgone := ensures_discard h.proper (p := dir ++ [recordName index])
      (by rw [List.dropLast_concat, h.directory]) (h.flat _)
    refine Ensures.bind_ok (K := Sole dir (Function.update f index none))
      (hgone.mono_proper h.proper
      (fun _ _ _ => trivial) fun a e he _ hQ => ⟨hQ.1, h.update none he ?_ fun name => ?_⟩) ?_
    · rw [hQ.2, if_neg (by simp), h.directory]
    · rw [hQ.2]
      simp only [List.append_cancel_left_eq, List.cons.injEq, and_true, Option.map_none]
    · intro e _ hafter
      refine (ih (index + 1) hafter).mono (fun _ _ => trivial) fun a e' _ hQ => ⟨hQ.1, ?_⟩
      have hrange : (fun i => if index + 1 ≤ i ∧ i < index + 1 + count then none
          else Function.update f index none i) =
          fun i => if index ≤ i ∧ i < index + (count + 1) then none else f i := by
        funext i
        rw [Function.update_apply]
        grind
      rw [← hrange]
      exact hQ.2

/-- Clearing leaves nothing. -/
theorem Sole.ensures_clear {rs : List Record} (h : Sole dir (rs[·]?) d) (cursor : Nat) :
    (Journal.clear ⟨dir, rs.length, cursor⟩).Ensures (fun _ => True)
      (fun r e => r = .ok ⟨dir, 0, 0⟩ ∧ Sole dir (([] : List Record)[·]?) e) d := by
  have hall : (fun i => if 0 ≤ i ∧ i < 0 + rs.length then none else rs[i]?) =
      (([] : List Record)[·]?) := by
    funext i
    by_cases hi : i < rs.length
    · rw [if_pos (by omega), List.getElem?_nil]
    · rw [if_neg (by omega), List.getElem?_eq_none (by omega), List.getElem?_nil]
  refine Ensures.bind_ok (K := Sole dir (([] : List Record)[·]?))
    ((h.ensures_removeRange rs.length 0).mono (fun _ _ => trivial) fun a e _ hQ =>
      ⟨hQ.1, hall ▸ hQ.2⟩) ?_
  rintro e - hnil
  have hnone : ∀ name, e.at? (dir ++ [name]) = none := by
    intro name
    rw [← Option.not_isSome_iff_eq_none, ← mem_names, hnil.mem_names_iff]
    simp
  refine Ensures.bind_ok (a := ()) (K := Sole dir (([] : List Record)[·]?))
    ((ensures_removeFrom 0 hnil.proper hnil.directory).mono_proper hnil.proper
      (fun _ _ _ => trivial)
      ?_) ?_
  · rintro r e' he' hpruned (⟨rfl, -⟩ | ⟨-, name, i, -, -, hnode⟩)
    · refine ⟨rfl, hnil.of_same he' (by rw [hpruned.at?_self, hnil.directory]) fun name => ?_⟩
      rw [hpruned.at?_of_none (hnone name), hnone name]
    · exact absurd hnode (hnil.flat name)
  · intro e' _ hafter
    exact (answers_pure _ e').ensures trivial ⟨rfl, hafter⟩

/-- Opening again finds the records and removes nothing. -/
theorem Sole.ensures_openIn {rs : List Record} (h : Sole dir (rs[·]?) d) :
    (openIn dir).Ensures (fun _ => True)
      (fun r e => r = .ok ⟨dir, rs.length, 0⟩ ∧ Sole dir (rs[·]?) e) d := by
  have hpresent : ∀ i < rs.length, (d.at? (recordPath dir i)).isSome := by
    intro i hi
    rw [h.holds, List.getElem?_eq_getElem hi]
    rfl
  have habsent : d.at? (recordPath dir rs.length) = none := by
    rw [h.holds, List.getElem?_eq_none (Nat.le_refl _)]
    rfl
  have hnone : ∀ name, Stale rs.length name → d.at? (dir ++ [name]) = none := by
    intro name hstale
    rw [← Option.not_isSome_iff_eq_none, ← mem_names, h.mem_names_iff_lt]
    rintro ⟨i, hi, rfl⟩
    exact not_stale_recordName hi hstale
  refine (ensures_openIn_same h.proper (h.proper.clear h.directory) hpresent habsent hnone).mono
    (fun _ _ => trivial) ?_
  rintro r e - ⟨hr, he, hdir, hsame⟩
  exact ⟨hr, h.of_same he hdir hsame⟩

/-- Where nothing is, a journal without records is opened. -/
theorem ensures_openIn_vacant (hd : d.Vacant dir) :
    (openIn dir).Ensures (fun _ => True)
      (fun r e => r = .ok ⟨dir, 0, 0⟩ ∧ Sole dir (([] : List Record)[·]?) e) d := by
  refine (ensures_openIn_same hd.proper hd.clear (fun i hi => absurd hi (Nat.not_lt_zero i))
    (hd.at?_append _) fun name _ => hd.at?_append name).mono (fun _ _ => trivial) ?_
  rintro r e - ⟨hr, he, hdir, hsame⟩
  refine ⟨hr, he, hdir, fun i => ?_, fun name hname => ?_⟩
  · rw [recordPath_eq, hsame, hd.at?_append]
    rfl
  · rw [hsame, hd.at?_append] at hname
    cases hname

/-! ## Serving calls -/

/-- The directory holds the records of the list, and each of them can be read back. -/
structure Keeps (dir : Path) (m : Reel) (d : Disk) : Prop where
  sole : Sole dir (m.records[·]?) d
  short : ∀ r ∈ m.records, r.data.length < Nat.pow 256 8

/-- The call ends with the answer of the list, and leaves its files. -/
def Call.Served (dir : Path) (m : Reel) (call : Call) (d : Disk) : Prop :=
  (call.perform (m.journal dir)).Ensures (fun _ => True) (fun r e =>
    r = ((call.onReel m).1, (call.onReel m).2.journal dir) ∧ Keeps dir (call.onReel m).2 e) d

variable {m m' : Reel} {call : Call} {answer : Answer}

theorem Call.Served.of_ensures (hreel : call.onReel m = (.ok answer, m'))
    (h : (call.attempt (m.journal dir)).Ensures (fun _ => True)
      (fun r e => r = .ok (answer, m'.journal dir) ∧ Keeps dir m' e) d) : call.Served dir m d := by
  unfold Call.Served
  rw [hreel]
  refine Action.Ensures.bind h ?_
  rintro - e - ⟨rfl, hafter⟩
  exact Action.ensures_done.2 ⟨trivial, rfl, hafter⟩

theorem Call.Served.of_answers (h : Keeps dir m' d) (hreel : call.onReel m = (.ok answer, m'))
    (hanswers : (call.attempt (m.journal dir)).Answers d (.ok (answer, m'.journal dir))) :
    call.Served dir m d :=
  .of_ensures hreel (hanswers.ensures trivial ⟨rfl, h⟩)

theorem Call.Served.of_fault {g : Fault} (h : Keeps dir m d) (hreel : call.onReel m = (.error g, m))
    (hanswers : (call.attempt (m.journal dir)).Answers d (.error g)) : call.Served dir m d := by
  unfold Call.Served
  rw [hreel]
  refine Action.Answers.ensures_bind hanswers ?_
  exact Action.ensures_done.2 ⟨trivial, rfl, h⟩

theorem Keeps.append (h : Keeps dir m d) {kind : Record.Kind} {key? value? : Option String}
    (hshort : (Call.append kind key? value?).Short) :
    (Call.append kind key? value?).Served dir m d := by
  refine .of_ensures rfl
    (Ensures.bind_ok (h.sole.ensures_append (.create kind key? value?) m.cursor)
    fun e _ hafter => ?_)
  refine (answers_pure _ e).ensures trivial ⟨?_, hafter, fun r hr => ?_⟩
  · simp [Reel.journal]
  · rcases List.mem_append.1 hr with hr | hr
    · exact h.short r hr
    · rw [List.mem_singleton.1 hr]
      exact hshort

theorem Keeps.clear (h : Keeps dir m d) : Call.clear.Served dir m d := by
  refine .of_ensures rfl (Ensures.bind_ok (h.sole.ensures_clear m.cursor) fun e _ hafter => ?_)
  exact (answers_pure _ e).ensures trivial ⟨rfl, hafter, by simp⟩

theorem Keeps.reopen (h : Keeps dir m d) : Call.reopen.Served dir m d := by
  refine .of_ensures rfl (Ensures.bind_ok h.sole.ensures_openIn fun e _ hafter => ?_)
  exact (answers_pure _ e).ensures trivial ⟨rfl, hafter, h.short⟩

theorem Keeps.next (h : Keeps dir m d) : Call.next.Served dir m d := by
  by_cases hlt : m.cursor < m.records.length
  · have hnext := answers_next (h.sole.holdsUpTo (m.records.length + 1)) (Nat.lt_succ_self _) hlt
      (h.short _ (List.getElem_mem hlt))
    have hmoved : Keeps dir ⟨m.records, m.cursor + 1⟩ d := ⟨h.sole, h.short⟩
    refine .of_answers hmoved ?_ (hnext.bind (answers_pure _ d))
    simp only [Call.onReel, List.getElem?_eq_getElem hlt]
  · have hend : (Journal.next (m.journal dir)).Answers d (.ok (none, m.journal dir)) :=
      answers_next_end (Nat.le_of_not_lt hlt)
    refine .of_answers h ?_ (hend.bind (answers_pure _ d))
    simp only [Call.onReel, List.getElem?_eq_none (Nat.le_of_not_lt hlt)]

theorem Keeps.load (h : Keeps dir m d) (index : Nat) : (Call.load index).Served dir m d := by
  by_cases hlt : index < m.records.length
  · have hload := answers_load (h.sole.holdsUpTo (m.records.length + 1)) (Nat.lt_succ_self _) hlt
      (h.short _ (List.getElem_mem hlt)) m.records.length m.cursor
    refine .of_answers h ?_ (hload.bind (answers_pure _ d))
    simp only [Call.onReel, List.getElem?_eq_getElem hlt]
  · have hnone := List.getElem?_eq_none (Nat.le_of_not_lt hlt)
    have habsent : d.at? (recordPath dir index) = none := by
      rw [h.sole.holds, hnone]
      rfl
    have hload : (Journal.load (m.journal dir) index).Answers d (.error (.io (.disk .notFound))) :=
      (answers_read_none h.sole.proper (by rw [recordPath, dropLast_entryPath, h.sole.directory])
        habsent).bind_error
    refine .of_fault h ?_ hload.bind_error
    simp only [Call.onReel, hnone]

/-- Every call is answered as the list with a cursor answers it. -/
theorem Keeps.served (h : Keeps dir m d) (call : Call) (hshort : call.Short) :
    call.Served dir m d := by
  cases call with
  | append kind key? value? => exact h.append hshort
  | clear => exact h.clear
  | rewind =>
    have hrewound : Keeps dir ⟨m.records, 0⟩ d := ⟨h.sole, h.short⟩
    exact .of_answers hrewound rfl (answers_pure _ d)
  | hasNext => exact .of_answers h rfl (answers_pure _ d)
  | next => exact h.next
  | load index => exact h.load index
  | size => exact .of_answers h rfl (answers_pure _ d)
  | isEmpty =>
    have hempty : (m.journal dir).isEmpty = m.records.isEmpty := by
      cases hrecords : m.records <;> simp [Journal.isEmpty, Reel.journal, hrecords]
    refine .of_answers h rfl ?_
    rw [← hempty]
    exact answers_pure _ d
  | reopen => exact h.reopen

/-- Calls one after the other are answered as the list with a cursor answers them. -/
theorem Keeps.performAll (calls : List Call) (h : Keeps dir m d)
    (hshort : ∀ call ∈ calls, call.Short) :
    (Call.performAll (m.journal dir) calls).Ensures (fun _ => True) (fun r e =>
      r = ((Call.allOnReel m calls).1, (Call.allOnReel m calls).2.journal dir) ∧
        Keeps dir (Call.allOnReel m calls).2 e) d := by
  induction calls generalizing m d with
  | nil => exact Action.ensures_done.2 ⟨trivial, rfl, h⟩
  | cons call calls ih =>
    obtain ⟨hcall, hcalls⟩ := List.forall_mem_cons.1 hshort
    refine Action.Ensures.bind (h.served call hcall) ?_
    rintro - e - ⟨rfl, hstep⟩
    refine Action.Ensures.bind (ih hstep hcalls) ?_
    rintro - e' - ⟨rfl, hrest⟩
    exact Action.ensures_done.2 ⟨trivial, rfl, hrest⟩

/-- A journal that is opened on an empty directory, or where none is yet, answers all calls as a
list of records with a cursor does. Then it counts the records of the list and stands at the list's
cursor, and the names in its directory are those of these records, each with its own record in the
file. -/
theorem performs_as_list (hd : d.Vacant dir) (calls : List Call)
    (hshort : ∀ call ∈ calls, call.Short) :
    ∃ j d₀ answers m e, (openIn dir).run.run d = (.ok j, d₀) ∧
      Call.allOnReel ⟨[], 0⟩ calls = (answers, m) ∧
      (Call.performAll j calls).run d₀ = ((answers, ⟨dir, m.records.length, m.cursor⟩), e) ∧
      (∀ name, name ∈ e.names dir ↔ ∃ i < m.records.length, name = recordName i) ∧
      ∀ i, e.at? (recordPath dir i) = m.records[i]?.map fun r => .file (Wire.encode r) := by
  obtain ⟨-, heq, hsole⟩ := ensures_openIn_vacant hd
  have hkeeps : Keeps dir ⟨[], 0⟩ _ := ⟨hsole, by simp⟩
  obtain ⟨-, hrun, hafter⟩ := hkeeps.performAll calls hshort
  exact ⟨_, _, _, _, _, Prod.ext heq rfl, rfl, Prod.ext hrun rfl,
    fun _ => hafter.sole.mem_names_iff_lt, hafter.sole.holds⟩

/-- A record that is appended at the end of a reading is read next, opening again starts from the
first record, and what was cleared is not seen again. -/
theorem performs_as_list_of_mixture : ∃ j d₀ e,
    (openIn ["log"]).run.run Disk.empty = (.ok j, d₀) ∧
      (Call.performAll j
        [.append .put (some "k") (some "v"), .next, .next, .append .commit none none,
        .next, .reopen, .next, .load 1, .load 2, .clear, .size, .append .abort none none,
        .next]).run d₀ =
        (([.ok .done, .ok (.next (some (.create .put (some "k") (some "v")))), .ok (.next none),
          .ok .done, .ok (.next (some (.create .commit none none))), .ok .done,
          .ok (.next (some (.create .put (some "k") (some "v")))),
          .ok (.record (.create .commit none none)), .error (.io (.disk .notFound)), .ok .done,
          .ok (.number 0), .ok .done, .ok (.next (some (.create .abort none none)))],
          ⟨["log"], 1, 1⟩), e) ∧
      ∀ name, name ∈ e.names ["log"] ↔ ∃ i < 1, name = recordName i := by
  obtain ⟨j, d₀, answers, m, e, hopen, hreel, hrun, hnames, -⟩ := performs_as_list
    (vacant_empty ["log"])
      [.append .put (some "k") (some "v"), .next, .next, .append .commit none none,
      .next, .reopen, .next, .load 1, .load 2, .clear, .size, .append .abort none none, .next]
    (by decide +kernel)
  obtain ⟨rfl, rfl⟩ := Prod.mk.inj hreel
  exact ⟨j, d₀, e, hopen, hrun, hnames⟩

end Journal

end RingStore
