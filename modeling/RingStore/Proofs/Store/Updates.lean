import RingStore.Proofs.Store.Intact
import RingStore.Proofs.Store.Leftovers

/-!
# An update is one step

An update of a store may be cut off at any call, and any of its calls on files may fail, whatever is
in the directory. Then the finished files are those from before, or those that the completed update
leaves, and all that is asked of the store later is answered as if nothing else had been there
(`updates_in_one_step`): a reader never sees half an update, and a draft that is left is never seen.
-/

namespace RingStore

open Disk Disk.Attempt

namespace Store

variable {s : Store} {op : Operation} {M : Contents} {d e : Disk} {o : Option (Except Fault Unit)}

/-- Carries an operation out. -/
def update (s : Store) : Operation → Attempt Unit
  | .put key value => s.put key value
  | .del key => s.delete key

/-- What is in the finished file of each name. -/
def entries (s : Store) (d : Disk) (stem : String) : Option Node := d.at? (entryPath s.dir stem)

/-- The finished files are the same on both disks, and later calls are answered the same. -/
def Matches (s : Store) (d e : Disk) : Prop :=
  s.entries e = s.entries d ∧
    ∀ calls, ((Call.performAll s calls).run e).1 = ((Call.performAll s calls).run d).1

theorem matches_of_alike (h : Alike s.dir d e) : s.Matches d e :=
  ⟨funext fun stem => h.at?_entryPath s.dir stem, fun calls => (agrees_performAll calls h).1⟩

/-- What an update on one disk may leave that is cut off on another or ends there with an answer. -/
structure InOneStep (s : Store) (op : Operation) (d : Disk) (o : Option (Except Fault Unit))
    (e : Disk) : Prop where
  /-- All is as before, or as the completed update leaves it. -/
  undivided : s.Matches d e ∨ s.Matches ((s.update op).run.run d).2 e
  /-- A fault leaves all as before. -/
  of_fault : ∀ f, o = some (.error f) → s.Matches d e
  /-- An update that ends well is complete. -/
  of_done : o = some (.ok ()) → (s.update op).run.run d = (.ok (), e)
  /-- Intact chains stay so, and every key has its old value, or the operation's key its new one. -/
  intact : s.Intact d → s.Intact e ∧ ∃ M, s.Serves M d ∧
    (s.Serves M e ∨ s.Serves (op.effect M) e) ∧ (o = some (.ok ()) → s.Serves (op.effect M) e)

theorem oneStep_update (s : Store) (op : Operation) : Action.OneStep s.dir (s.update op).run := by
  cases op with
  | put key value => exact s.oneStep_put key value
  | del key => exact s.oneStep_delete key

/-- A completed update has filled the store with what it is to. -/
theorem Filled.of_update (h : s.Filled M d) (op : Operation)
    (hrun : (s.update op).run.run d = (.ok (), e)) : s.Filled (op.effect M) e := by
  have hends : Action.Falters (s.update op).run d (.ok ()) e := Action.fares_of_run hrun
  have he : e.Proper := hends.proper h.proper
  cases op with
  | put key value =>
    have hput := (h.ensures_put key value).2
    rw [show (s.put key value).run.run d = _ from hrun] at hput
    exact hput rfl he
  | del key =>
    have hdelete := (h.ensures_delete key).2
    rw [show (s.delete key).run.run d = _ from hrun] at hdelete
    exact hdelete rfl he

/-- Wherever an update breaks, a filled store is filled with the contents from before or from
after. -/
theorem Filled.of_breaks (h : s.Filled M d) (hbreaks : Action.Breaks (s.update op).run d o e) :
    (s.Filled M e ∨ s.Filled (op.effect M) e) ∧ (o = some (.ok ()) → s.Filled (op.effect M) e) := by
  have hstep := s.oneStep_update op
  have he := hbreaks.proper h.proper
  refine ⟨?_, ?_⟩
  · rcases hbreaks.alike_or_done hstep with halike | rfl
    · exact .inl (h.of_alike he halike)
    · cases hr : ((s.update op).run.run d).1 with
      | ok _ => exact .inr (h.of_update op (Prod.ext hr rfl))
      | error f =>
        have hfault : Action.Falters (s.update op).run d (.error f) ((s.update op).run.run d).2 :=
          Action.fares_of_run (Prod.ext hr rfl)
        exact .inl (h.of_alike he (hfault.breaks.alike_of_fault hstep))
  · rintro rfl
    exact h.of_update op (hbreaks.run_of_ok hstep)

theorem inOneStep (hbreaks : Action.Breaks (s.update op).run d o e) : s.InOneStep op d o e where
  undivided := by
    rcases hbreaks.alike_or_done (s.oneStep_update op) with halike | rfl
    · exact .inl (matches_of_alike halike)
    · exact .inr (matches_of_alike (.refl _ _))
  of_fault := by
    rintro f rfl
    exact matches_of_alike (hbreaks.alike_of_fault (s.oneStep_update op))
  of_done := by
    rintro rfl
    exact hbreaks.run_of_ok (s.oneStep_update op)
  intact := by
    intro hintact
    obtain ⟨M, hfilled⟩ := hintact.exists_filled
    obtain ⟨heither, hdone⟩ := hfilled.of_breaks hbreaks
    refine ⟨heither.elim (·.intact) (·.intact), M, hfilled.serves, ?_, fun ho => (hdone ho).serves⟩
    exact heither.imp (·.serves) (·.serves)

/-- The chains of a store that is opened on an empty directory are intact after all calls. -/
theorem intact_of_performAll {dir : Path} {buckets : Nat} (hbuckets : 0 < buckets)
    (hd : d.Vacant dir) (calls : List Call) :
    (Store.mk dir buckets).Intact ((Call.performAll ⟨dir, buckets⟩ calls).run
      ((openIn dir buckets).run.run d).2).2 := by
  obtain ⟨-, -, hproper, hopened, hdir⟩ := ensures_openIn hbuckets hd.proper hd.clear
  have hkeeps := (keeps_of_opened hd hproper hopened hdir).performAll hbuckets calls
  exact (hkeeps.2.2.holds.filled hkeeps.2.2.directory).intact

/-- Every update of a store is one step, whatever is in its directory, wherever it is cut off and
whichever calls fail. Reading a key changes nothing, and drafts that are left change no answer. -/
theorem updates_in_one_step (s : Store) (d : Disk) :
    (∀ op o e, Action.Breaks (s.update op).run d o e → s.InOneStep op d o e) ∧
      (∀ key o e, Action.Breaks (s.get key).run d o e → e = d) ∧
      ∀ e, Alike s.dir d e → s.Matches d e :=
  ⟨fun _ _ _ => inOneStep, fun key _ _ h => (s.within_get key).eq_of_breaks h,
    fun _ => matches_of_alike⟩

/-- Putting a key can be cut off while its draft is written. -/
theorem breaks_put_torn {key value : String} {slot : Nat} {pair? : Option StoredPair}
    {d' : Disk} {other : Bytes} (hpair : checkPair key value = .ok ())
    (hdir : d.at? s.dir = some .directory) (hlocate : (s.locate key).Answers d (.ok (slot, pair?)))
    (hcreate : d.apply (.create (draftPath s.dir (slotName (s.bucketOf key) slot))) = .ok d')
    (hwrite : d'.apply (.write (draftPath s.dir (slotName (s.bucketOf key) slot)) other) = .ok e) :
    Action.Breaks (s.put key value).run d none e := by
  unfold put
  rw [hpair]
  exact Action.Fares.bind (answers_lift (.ok ()) d).fares
    (Action.Fares.bind (answers_requireDirectory hdir).fares
      (Action.Fares.bind hlocate.fares (.change hcreate (Action.breaks_torn hwrite))))

/-- Two keys are in the only bucket, and the second one is to get another value. The write of its
draft is cut off after a byte: nothing has changed for whoever reads. -/
theorem updates_in_one_step_of_torn :
    let s : Store := ⟨["data"], 1⟩
    let d := ((Call.performAll s [.put "a" "1", .put "b" "2"]).run
      ((openIn ["data"] 1).run.run Disk.empty).2).2
    let e :=
      (d.set (draftPath ["data"] "0-1") (.file [])).set (draftPath ["data"] "0-1") (.file [7])
    Action.Breaks (s.update (.put "b" "3")).run d none e ∧ s.Intact d ∧
      s.InOneStep (.put "b" "3") d none e ∧ s.Intact e ∧ Alike s.dir d e ∧ s.Matches d e ∧
      ∃ c, Action.Breaks (s.get "b").run d (some (.error (.io (.disk .device)))) c ∧ c = d := by
  intro s d e
  have hdir : d.at? s.dir = some .directory := by decide +kernel
  have hlocate : (s.locate "b").Answers d (.ok (1, some ⟨"b", "2"⟩)) :=
    ⟨by decide +kernel, by decide +kernel⟩
  have hstem : slotName (s.bucketOf "b") 1 = "0-1" := by decide +kernel
  have hcreate : d.apply (.create (draftPath ["data"] "0-1")) =
      .ok (d.set (draftPath ["data"] "0-1") (.file [])) := by decide +kernel
  have hwrite : (d.set (draftPath ["data"] "0-1") (.file [])).apply
      (.write (draftPath ["data"] "0-1") [7]) = .ok e := by decide +kernel
  have hbreaks : Action.Breaks (s.update (.put "b" "3")).run d none e :=
    breaks_put_torn (by decide) hdir hlocate (by rw [hstem]; exact hcreate)
      (by rw [hstem]; exact hwrite)
  have hget : Action.Breaks (s.get "b").run d (some (.error (.io (.disk .device)))) d :=
    fares_get_unread hdir (by decide) (by decide)
  have hintact : s.Intact d := intact_of_performAll (by decide) (vacant_empty ["data"]) _
  have hcreated : Alike s.dir d (d.set (draftPath ["data"] "0-1") (.file [])) := by
    refine .of_apply ?_ ?_ hcreate
    · exact trivial
    · rintro q rfl
      exact ⟨"0-1", rfl⟩
  have halike : Alike s.dir d e := by
    refine hcreated.trans (.of_apply ?_ ?_ hwrite)
    · exact trivial
    · rintro q rfl
      exact ⟨"0-1", rfl⟩
  have hstep := (updates_in_one_step s d).1 _ _ _ hbreaks
  exact ⟨hbreaks, hintact, hstep, (hstep.intact hintact).1, halike,
    (updates_in_one_step s d).2.2 e halike, d, hget, (updates_in_one_step s d).2.1 _ _ _ hget⟩

end Store

end RingStore
