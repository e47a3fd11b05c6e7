import RingStore.Proofs.Replica.Standing

/-!
# The directories of a replica

The journal's directory is in the store's, and no file of the one is a file of the other. Changes of
the store therefore leave the journal's records as they are, and changes of the journal the store's
contents (`Housed.of_store`, `Housed.of_journal`).
-/

namespace RingStore

open Disk Disk.Attempt

variable {settings : ReplicaSettings} {M : Store.Contents} {rs : List Record} {d e : Disk}

namespace ReplicaSettings

theorem length_journalPath (settings : ReplicaSettings) :
    settings.journalPath.length = settings.storePath.length + 1 := by
  simp [journalPath]

/-- The store and the journal have directories of their own. -/
theorem storePath_ne_journalPath (settings : ReplicaSettings) :
    settings.storePath ≠ settings.journalPath := by
  simp [journalPath]

/-- The journal's directory is no file of the store. -/
theorem not_owns_above {q : Path} (hq : q <+: settings.journalPath) :
    ¬ settings.store.Owns q := by
  rintro ⟨stem, hown⟩
  have hlen : q.length = settings.journalPath.length := by
    rw [length_journalPath]
    rcases hown with rfl | rfl
    · simp [entryPath, store]
    · simp [draftPath, store]
  obtain rfl := hq.eq_of_length hlen
  rcases hown with heq | heq
  · exact entryPath_ne_append (by decide) heq.symm
  · exact draftPath_ne_append (by decide) heq.symm

theorem not_owns_below (name : String) :
    ¬ settings.store.Owns (settings.journalPath ++ [name]) := by
  intro hown
  have hdir := settings.store.dropLast_of_owns hown
  rw [List.dropLast_concat] at hdir
  exact settings.storePath_ne_journalPath hdir.symm

theorem not_prefix_of_owns {q : Path} (hq : settings.store.Owns q) :
    ¬ q <+: settings.journalPath :=
  fun hpre => not_owns_above hpre hq

theorem dropLast_ne_of_owns {q : Path} (hq : settings.store.Owns q) :
    q.dropLast ≠ settings.journalPath := by
  rw [settings.store.dropLast_of_owns hq]
  exact settings.storePath_ne_journalPath

/-- Work in the store leaves the journal tidy. -/
theorem tidy_journal_of_store (h : Journal.Tidy settings.journalPath rs d)
    (he : e.Proper) (hsame : ∀ q, ¬ settings.store.Owns q → e.at? q = d.at? q) :
    Journal.Tidy settings.journalPath rs e where
  proper := he
  directory := by
    rw [hsame _ (not_owns_above List.prefix_rfl), h.directory]
  flat := fun name => by
    rw [hsame _ (not_owns_below name)]
    exact h.flat name
  holds := fun i hi => by
    rw [Journal.recordPath_eq, hsame _ (not_owns_below _)]
    exact h.holds i hi

/-- Both directories are there. The store holds the contents, and the journal the records. -/
structure Housed (settings : ReplicaSettings) (M : Store.Contents) (rs : List Record) (d : Disk) :
    Prop where
  store : settings.store.Holds M d
  directory : d.at? settings.storePath = some .directory
  journal : Journal.Tidy settings.journalPath rs d

/-- The store holds the contents, and the journal the records. This is all that is sure after a
crash. -/
structure Stocked (settings : ReplicaSettings) (M : Store.Contents) (rs : List Record) (d : Disk) :
    Prop where
  store : settings.store.Holds M d
  journal : Journal.Kept settings.journalPath rs d

theorem Housed.stocked (h : settings.Housed M rs d) (hlen : rs.length < Journal.recordBound) :
    settings.Stocked M rs d :=
  ⟨h.store, h.journal.kept hlen⟩

/-- Work in the store leaves the records where they are. -/
theorem Housed.of_store {M' : Store.Contents} (h : settings.Housed M rs d)
    (he : settings.store.Holds M' e)
    (hsame : ∀ q, ¬ settings.store.Owns q → e.at? q = d.at? q) : settings.Housed M' rs e where
  store := he
  directory := by
    rw [hsame _ (not_owns_above (List.prefix_append _ _)), h.directory]
  journal := tidy_journal_of_store h.journal he.proper hsame

/-- Changes in the journal's directory leave the store as it is, and the directory itself. -/
theorem holds_of_journal (h : settings.store.Holds M d) (he : e.Proper)
    (hsame : ∀ q, ¬ q.dropLast = settings.journalPath → e.at? q = d.at? q) :
    settings.store.Holds M e ∧ e.at? settings.journalPath = d.at? settings.journalPath := by
  refine ⟨h.of_same he fun q hq => hsame q (dropLast_ne_of_owns hq), hsame _ fun heq => ?_⟩
  have hlen := congrArg List.length heq
  rw [List.length_dropLast, length_journalPath] at hlen
  omega

theorem housed_of_tidy (h : settings.store.Holds M d)
    (hjournal : Journal.Tidy settings.journalPath rs d) :
    settings.Housed M rs d :=
  ⟨h, h.proper.at?_above hjournal.directory (List.prefix_append _ _), hjournal⟩

/-! ## Changes of the store -/

/-- While a pair is put the directories hold the contents from before or the ones after. -/
theorem Housed.ensures_put (h : settings.Housed M rs d) {key value : String}
    (hop : checkPair key value = .ok ()) :
    (settings.store.put key value).Ensures
      (fun e => settings.Housed M rs e ∨ settings.Housed ((Operation.put key value).effect M) rs e)
      (fun a e => a = .ok () ∧ settings.Housed ((Operation.put key value).effect M) rs e) d := by
  have hput := (Store.ensures_put h.store h.directory hop).and
    (settings.store.within_put key value).ensures
  refine hput.mono ?_ fun a e hC hQ => ⟨hQ.1.1, h.of_store hQ.1.2.1 hC.2⟩
  rintro e ⟨hbefore | hafter, hsame⟩
  · exact .inl (h.of_store hbefore hsame)
  · exact .inr (h.of_store hafter hsame)

theorem Housed.ensures_delete (h : settings.Housed M rs d) {key value : String}
    (hop : checkKey key = .ok ()) (hM : M key = some value) :
    (settings.store.delete key).Ensures
      (fun e => settings.Housed M rs e ∨ settings.Housed ((Operation.del key).effect M) rs e)
      (fun a e => a = .ok () ∧ settings.Housed ((Operation.del key).effect M) rs e) d := by
  have hdelete := (Store.ensures_delete h.store h.directory hop hM).and
    (settings.store.within_delete key).ensures
  refine hdelete.mono ?_ fun a e hC hQ => ⟨hQ.1.1, h.of_store hQ.1.2.1 hC.2⟩
  rintro e ⟨hbefore | hafter, hsame⟩
  · exact .inl (h.of_store hbefore hsame)
  · exact .inr (h.of_store hafter hsame)

/-! ## Changes of the journal -/

/-- While the journal is cleared its records are all there, or none is. -/
theorem Stocked.ensures_clear (h : settings.Stocked M rs d)
    (hdir : d.at? settings.journalPath = some .directory) {n : Nat} (hlen : rs.length ≤ max 1 n)
    (hn : n < Journal.recordBound) (cursor : Nat) :
    (Journal.clear ⟨settings.journalPath, n, cursor⟩).Ensures
      (fun e => (settings.Stocked M rs e ∨ settings.Stocked M [] e) ∧
        e.at? settings.journalPath = some .directory)
      (fun j e => j = .ok ⟨settings.journalPath, 0, 0⟩ ∧ settings.Housed M [] e) d := by
  have hclear := (h.journal.ensures_clear hdir hlen hn cursor).and
    (Journal.within_clear ⟨settings.journalPath, n, cursor⟩).ensures
  refine hclear.mono_proper h.store.proper ?_ ?_
  · rintro e he ⟨hjournal, hsame⟩
    obtain ⟨hstore, hdir'⟩ := holds_of_journal h.store he hsame
    exact ⟨hjournal.imp (fun h' => ⟨hstore, h'⟩) fun h' => ⟨hstore, h'⟩, hdir'.trans hdir⟩
  · rintro j e he ⟨-, hsame⟩ ⟨⟨rfl, hjournal⟩, -⟩
    exact ⟨rfl, housed_of_tidy (holds_of_journal h.store he hsame).1 hjournal⟩

/-- A record comes at the end of those that are counted. -/
theorem Housed.ensures_append_at (h : settings.Housed M rs d) (record : Record) {n : Nat}
    (hn : n ≤ rs.length) (hlen : rs.length ≤ n + 1) (cursor : Nat) :
    (Journal.append ⟨settings.journalPath, n, cursor⟩ record).Ensures
      (fun e => settings.Housed M rs e ∨ settings.Housed M (rs.take n ++ [record]) e)
      (fun j e => j = .ok ⟨settings.journalPath, n + 1, cursor⟩ ∧
        settings.Housed M (rs.take n ++ [record]) e) d := by
  have happend := (h.journal.ensures_append record hn hlen cursor).and
    (Journal.within_append ⟨settings.journalPath, n, cursor⟩ record).ensures
  have hhoused : ∀ {rs' : List Record} {e : Disk}, Journal.Tidy settings.journalPath rs' e →
      (∀ q, ¬ q.dropLast = settings.journalPath → e.at? q = d.at? q) → settings.Housed M rs' e :=
    fun htidy hsame => housed_of_tidy (holds_of_journal h.store htidy.proper hsame).1 htidy
  refine happend.mono ?_ fun j e hC hQ => ⟨hQ.1.1, hhoused hQ.1.2 hC.2⟩
  rintro e ⟨hbefore | hafter, hsame⟩
  · exact .inl (hhoused hbefore hsame)
  · exact .inr (hhoused hafter hsame)

/-- While a record is added the journal is without it or has it. -/
theorem Housed.ensures_append (h : settings.Housed M rs d) (record : Record) (cursor : Nat) :
    (Journal.append ⟨settings.journalPath, rs.length, cursor⟩ record).Ensures
      (fun e => settings.Housed M rs e ∨ settings.Housed M (rs ++ [record]) e)
      (fun j e => j = .ok ⟨settings.journalPath, rs.length + 1, cursor⟩ ∧
        settings.Housed M (rs ++ [record]) e) d := by
  have happend := h.ensures_append_at record (Nat.le_refl _) (Nat.le_succ _) cursor
  rwa [List.take_length] at happend

end ReplicaSettings

namespace Replica

open ReplicaSettings

/-- What an operation makes of a cache: a key gets its value, or goes. -/
def cacheOf (op : Operation) (c : Cache) : Cache :=
  match op with
  | .put key value => c.put key value
  | .del key => c.erase key

theorem ensures_apply (h : settings.Housed M rs d) {r : Replica} (hr : r.store = settings.store)
    {op : Operation} (hop : op.check = .ok ()) (hM : op.value? = none → M op.key ≠ none) :
    (r.apply op).Ensures (fun e => settings.Housed M rs e ∨ settings.Housed (op.effect M) rs e)
      (fun a e => a = (.ok (), { r with cache := cacheOf op r.cache }) ∧
        settings.Housed (op.effect M) rs e) d := by
  cases op with
  | put key value =>
    have hput := h.ensures_put hop
    rw [← hr] at hput
    refine Action.Ensures.bind hput ?_
    rintro - e hC ⟨rfl, hafter⟩
    exact Action.ensures_done.2 ⟨hC, rfl, hafter⟩
  | del key =>
    obtain ⟨value, hvalue⟩ := Option.ne_none_iff_exists'.1 (hM rfl)
    have hdelete := h.ensures_delete hop hvalue
    rw [← hr] at hdelete
    refine Action.Ensures.bind hdelete ?_
    rintro - e hC ⟨rfl, hafter⟩
    exact Action.ensures_done.2 ⟨hC, rfl, hafter⟩

/-- A key without a value leaves the cache, and nothing else changes. -/
theorem answers_apply_none (h : settings.Housed M rs d) {r : Replica}
    (hr : r.store = settings.store)
    {key : String} (hkey : checkKey key = .ok ()) (hM : M key = none) :
    (r.apply (.del key)).Answers d
      (.error .noSuchKey, { r with cache := cacheOf (.del key) r.cache }) := by
  have hdelete := Store.answers_delete_none h.store h.directory hkey hM
  rw [← hr] at hdelete
  exact Action.Answers.bind hdelete (Action.answers_done _ _)

/-- An operation over a limit is refused, the deletion of a key that is gone is a fault, and every
other operation takes effect. -/
theorem ensures_apply_cases (h : settings.Housed M rs d) {r : Replica}
    (hr : r.store = settings.store) (op : Operation) {Q : Except Fault Unit × Replica → Disk → Prop}
    (hrefused : ∀ f cache, op.check = .error f → cache = r.cache ∨ cache = r.cache.erase op.key →
      Q (.error f, { r with cache }) d)
    (hgone : op.check = .ok () → op.value? = none ∧ M op.key = none →
      Q (.error .noSuchKey, { r with cache := r.cache.erase op.key }) d)
    (hdone : ∀ e, op.check = .ok () → ¬ (op.value? = none ∧ M op.key = none) →
      settings.Housed (op.effect M) rs e → Q (.ok (), { r with cache := cacheOf op r.cache }) e) :
    (r.apply op).Ensures (fun _ => True) Q d := by
  cases hcheck : op.check with
  | error f =>
    cases op with
    | put key value =>
      have hput : (r.store.put key value).Answers d (.error f) := Store.answers_put_refused hcheck
      have happly : (r.apply (.put key value)).Answers d (.error f, r) :=
        Action.Answers.bind hput (Action.answers_done _ _)
      exact happly.ensures trivial (hrefused f r.cache hcheck (.inl rfl))
    | del key =>
      have hdelete : (r.store.delete key).Answers d (.error f) :=
        Store.answers_delete_refused hcheck
      have happly :
          (r.apply (.del key)).Answers d (.error f, { r with cache := r.cache.erase key }) :=
        Action.Answers.bind hdelete (Action.answers_done _ _)
      exact happly.ensures trivial (hrefused f _ hcheck (.inr rfl))
  | ok _ =>
    by_cases hM : op.value? = none ∧ M op.key = none
    · cases op with
      | put key value => exact absurd hM.1 (by simp [Operation.value?])
      | del key => exact (answers_apply_none h hr hcheck hM.2).ensures trivial (hgone hcheck hM)
    · refine (ensures_apply h hr hcheck fun hv hnone => hM ⟨hv, hnone⟩).mono (fun _ _ => trivial) ?_
      rintro - e - ⟨rfl, hafter⟩
      exact hdone e hcheck hM hafter

/-- A decided operation is carried out in one step. -/
theorem ensures_applyDecided (h : settings.Housed M rs d) {r : Replica}
    (hr : r.store = settings.store) {op : Operation} (hop : op.check = .ok ()) :
    (r.applyDecided op).Ensures
      (fun e => settings.Housed M rs e ∨ settings.Housed (op.effect M) rs e)
      (fun a e => a = (.ok (), { r with cache := cacheOf op r.cache }) ∧
        settings.Housed (op.effect M) rs e) d := by
  by_cases hM : op.value? = none → M op.key ≠ none
  · refine Action.Ensures.bind (ensures_apply h hr hop hM) ?_
    rintro - e hC ⟨rfl, hafter⟩
    exact Action.ensures_done.2 ⟨hC, rfl, hafter⟩
  · -- nothing changes: the key is gone already
    cases op with
    | put key value => exact absurd (fun hnone => absurd hnone (by simp [Operation.value?])) hM
    | del key =>
      have hnone : M key = none := by
        by_contra hne
        exact hM fun _ => hne
      have hsame : (Operation.del key).effect M = M := Function.update_eq_self_iff.2 hnone.symm
      rw [hsame]
      refine Action.Answers.ensures_bind (answers_apply_none h hr hop hnone) ?_
      exact Action.ensures_done.2 ⟨.inl h, rfl, h⟩

/-- A vote takes the place of all records. -/
theorem ensures_recordVote_of_housed (h : settings.Housed M rs d)
    (hlen : rs.length < Journal.recordBound) (op : Operation) (cursor : Nat) :
    (recordVote ⟨settings.journalPath, rs.length, cursor⟩ op).Ensures
      (fun e => settings.Stocked M rs e ∨ settings.Stocked M [] e ∨
        settings.Stocked M [.ofVote op] e)
      (fun a e => a = (.ok (), ⟨settings.journalPath, 1, 0⟩) ∧
        settings.Housed M [.ofVote op] e) d := by
  have hclear := (h.stocked hlen).ensures_clear h.journal.directory (by omega) hlen cursor
  refine Action.Ensures.bind (hclear.mono (fun e he => he.1.imp_right .inl) fun a e _ hQ => hQ) ?_
  rintro - c - ⟨rfl, hempty⟩
  refine Action.Ensures.bind ((hempty.ensures_append (.ofVote op) 0).mono ?_ fun a e _ hQ => hQ) ?_
  · rintro e (hbefore | hafter)
    · exact .inr (.inl (hbefore.stocked (by decide)))
    · exact .inr (.inr (hafter.stocked (show 1 < Journal.recordBound by decide)))
  · rintro - e hC ⟨rfl, hafter⟩
    exact Action.ensures_done.2 ⟨hC, rfl, hafter⟩

end Replica

end RingStore
