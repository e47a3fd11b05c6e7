import RingStore.Proofs.Replica.Directories
import RingStore.Proofs.Store.Failing

/-!
# Failing calls under a store and a journal

The changes of a store and of a journal stop when a call fails, and leave what a crash would leave:
an operation is carried out or not (`ends_applyDecided`), a record is there or not (`ends_append`),
and a vote comes into the place of all records or leaves those from before, or none
(`ends_recordVote`). Here only a look at the store's directory may fail: a look at a file of the
store that fails can cost a key (`Store.ends_delete_blind`).
-/

namespace RingStore

open Disk Disk.Attempt

/-! ## Drafts -/

section Frayed

variable {d e : Disk}

/-- A store holds what it held: its slots are finished files. -/
theorem Store.Holds.frayed {s : Store} {M : Store.Contents} (h : s.Holds M d) (he : Frayed d e) :
    s.Holds M e where
  proper := he.proper h.proper
  chains := by
    intro bucket
    obtain ⟨slots, n, hc, hshows⟩ := h.chains bucket
    refine ⟨slots, n, hc, fun i => ?_⟩
    rw [Store.slotPath, he.at?_entryPath]
    exact hshows i
  short := h.short
  drafts := fun stem => (he.directory_iff _).not.2 (h.drafts stem)

/-- A journal holds its records: they are finished files. -/
theorem Journal.Holds.frayed {dir : Path} {rs : List Record} {bound : Nat}
    (h : Journal.Holds dir rs bound d) (he : Frayed d e) : Journal.Holds dir rs bound e := by
  intro i hi
  rw [Journal.recordPath, he.at?_entryPath]
  exact h i hi

theorem Journal.Kept.frayed {dir : Path} {rs : List Record} (h : Journal.Kept dir rs d)
    (he : Frayed d e) : Journal.Kept dir rs e :=
  ⟨he.proper h.proper, he.clear h.clear, fun name => (he.directory_iff _).not.2 (h.flat name),
    h.holds.frayed he⟩

theorem Journal.Tidy.frayed {dir : Path} {rs : List Record} (h : Journal.Tidy dir rs d)
    (he : Frayed d e) : Journal.Tidy dir rs e :=
  ⟨he.proper h.proper, (he.directory_iff _).2 h.directory,
    fun name => (he.directory_iff _).not.2 (h.flat name), h.holds.frayed he⟩

variable {settings : ReplicaSettings} {M : Store.Contents} {rs : List Record}

theorem ReplicaSettings.Stocked.frayed (h : settings.Stocked M rs d) (he : Frayed d e) :
    settings.Stocked M rs e :=
  ⟨h.store.frayed he, h.journal.frayed he⟩

/-- A directory that houses a replica does so still when drafts on it fray. -/
theorem ReplicaSettings.Housed.frayed (h : settings.Housed M rs d) (he : Frayed d e) :
    settings.Housed M rs e :=
  ⟨h.store.frayed he, (he.directory_iff _).2 h.directory, h.journal.frayed he⟩

end Frayed

/-! ## The journal -/

namespace Journal

variable {blind : Path → Prop} {dir : Path}

theorem stops_removeNamed (first : Nat) (names : List String) :
    (removeNamed dir first names).Stops blind := by
  induction names with
  | nil => exact trivial
  | cons name rest ih =>
    rw [removeNamed_cons]
    split
    · exact Stops.bind (stops_discard_unlink _) fun _ => ih
    · exact ih

theorem stops_removeRange (count index : Nat) : (removeRange dir index count).Stops blind := by
  induction count generalizing index with
  | zero => exact trivial
  | succ count ih => exact Stops.bind (stops_discard_unlink _) fun _ => ih (index + 1)

/-- Clearing a journal is over when a call fails. -/
theorem stops_clear (j : Journal) : j.clear.Stops blind :=
  Stops.bind (stops_removeRange _ _) fun _ =>
    Stops.bind (Stops.bind (stops_list _) fun _ => stops_removeNamed _ _) fun _ => stops_pure _

/-- Adding a record is over when a call fails. -/
theorem stops_append (j : Journal) (r : Record) : (j.append r).Stops blind :=
  Stops.bind (stops_writeEntry ..) fun _ => stops_pure _

end Journal

/-! ## What a failing call leaves -/

namespace Replica

open ReplicaSettings Action

variable {settings : ReplicaSettings} {M : Store.Contents} {rs : List Record} {d e : Disk}

/-- However calls fail, a record is added or it is not, and the answer tells only in the first case.
-/
theorem ends_append {blind : Path → Prop} (h : settings.Housed M rs d) {record : Record} {n : Nat}
    (hn : n ≤ rs.length) (hlen : rs.length ≤ n + 1) {cursor : Nat} {answer : Except Fault Journal}
    (hends : Ends blind (Journal.append ⟨settings.journalPath, n, cursor⟩ record).run d answer e) :
    (answer = .ok ⟨settings.journalPath, n + 1, cursor⟩ ∧
      settings.Housed M (rs.take n ++ [record]) e) ∨
    ((∃ f, answer = .error f) ∧
      (settings.Housed M rs e ∨ settings.Housed M (rs.take n ++ [record]) e)) := by
  have hkept : ∀ c e, settings.Housed M rs c ∨ settings.Housed M (rs.take n ++ [record]) c →
      Frayed c e → settings.Housed M rs e ∨ settings.Housed M (rs.take n ++ [record]) e :=
    fun c e hc hfrayed => hc.imp (·.frayed hfrayed) (·.frayed hfrayed)
  rcases Ensures.ends (h.ensures_append_at record hn hlen cursor) (Journal.stops_append _ _) hkept
    hends with hdone | ⟨⟨f, -, rfl⟩, hC⟩
  · exact .inl hdone
  · exact .inr ⟨⟨f, rfl⟩, hC⟩

/-- However calls fail, a journal keeps its first records to clear them again, or has none left. -/
theorem ends_clear {blind : Path → Prop} (h : settings.Stocked M rs d)
    (hdir : d.at? settings.journalPath = some .directory) {n : Nat} (hlen : rs.length ≤ max 1 n)
    (hn : n < Journal.recordBound) {cursor : Nat} {answer : Except Fault Journal}
    (hends : Ends blind (Journal.clear ⟨settings.journalPath, n, cursor⟩).run d answer e) :
    (answer = .ok ⟨settings.journalPath, 0, 0⟩ ∧ settings.Housed M [] e) ∨
    ((∃ f, answer = .error f) ∧ (settings.Stocked M rs e ∨ settings.Stocked M [] e) ∧
      e.at? settings.journalPath = some .directory) := by
  have hkept : ∀ c e, (settings.Stocked M rs c ∨ settings.Stocked M [] c) ∧
      c.at? settings.journalPath = some .directory → Frayed c e →
      (settings.Stocked M rs e ∨ settings.Stocked M [] e) ∧
        e.at? settings.journalPath = some .directory :=
    fun c e hc hfrayed => ⟨hc.1.imp (·.frayed hfrayed) (·.frayed hfrayed),
      (hfrayed.directory_iff _).2 hc.2⟩
  rcases Ensures.ends (h.ensures_clear hdir hlen hn cursor) (Journal.stops_clear _) hkept hends
    with hdone | ⟨⟨f, -, rfl⟩, hC⟩
  · exact .inl hdone
  · exact .inr ⟨⟨f, rfl⟩, hC⟩

/-- However calls fail, a vote comes into the place of all records, or the records from before are
still read, or none, or the vote that was not answered. -/
theorem ends_recordVote {blind : Path → Prop} (h : settings.Stocked M rs d)
    (hdir : d.at? settings.journalPath = some .directory) {n : Nat} (hlen : rs.length ≤ max 1 n)
    (hn : n < Journal.recordBound) {cursor : Nat} {op : Operation}
    {answer : Except Fault Unit × Journal}
    (hends : Ends blind (recordVote ⟨settings.journalPath, n, cursor⟩ op) d answer e) :
    (answer = (.ok (), ⟨settings.journalPath, 1, 0⟩) ∧ settings.Housed M [.ofVote op] e) ∨
    ((∃ f, answer = (.error f, ⟨settings.journalPath, n, cursor⟩)) ∧
      (settings.Stocked M rs e ∨ settings.Stocked M [] e) ∧
      e.at? settings.journalPath = some .directory) ∨
    ((∃ f, answer = (.error f, ⟨settings.journalPath, 0, 0⟩)) ∧
      (settings.Housed M [] e ∨ settings.Housed M [.ofVote op] e)) := by
  obtain ⟨cleared, c, hclear, hrest⟩ := fares_bind hends
  rcases ends_clear h hdir hlen hn hclear with ⟨rfl, hempty⟩ | ⟨⟨f, rfl⟩, hC⟩
  · obtain ⟨appended, c', happend, hrest⟩ := fares_bind hrest
    rcases ends_append hempty (Nat.le_refl 0) (Nat.zero_le 1) happend with
      ⟨rfl, hafter⟩ | ⟨⟨f, rfl⟩, hC⟩
    · obtain ⟨rfl, rfl⟩ := fares_done hrest
      exact .inl ⟨rfl, hafter⟩
    · obtain ⟨rfl, rfl⟩ := fares_done hrest
      exact .inr (.inr ⟨⟨f, rfl⟩, hC⟩)
  · obtain ⟨rfl, rfl⟩ := fares_done hrest
    exact .inr (.inl ⟨⟨f, rfl⟩, hC⟩)

/-- A key that is to be deleted goes, if it is there. -/
theorem ensures_delete_any (h : settings.Housed M rs d) {key : String}
    (hkey : checkKey key = .ok ()) :
    (settings.store.delete key).Ensures
      (fun e => settings.Housed M rs e ∨ settings.Housed ((Operation.del key).effect M) rs e)
      (fun a e => (a = .ok () ∨ a = .error .noSuchKey) ∧
        settings.Housed ((Operation.del key).effect M) rs e) d := by
  cases hM : M key with
  | some value =>
    exact (h.ensures_delete hkey hM).mono (fun e he => he) fun a e _ hQ => ⟨.inl hQ.1, hQ.2⟩
  | none =>
    have hsame : (Operation.del key).effect M = M := Function.update_eq_self_iff.2 hM.symm
    rw [hsame]
    exact (Store.answers_delete_none h.store h.directory hkey hM).ensures (.inl h) ⟨.inr rfl, h⟩

/-- A decided operation ends as the operation does, but that it is no fault if the key is gone. -/
theorem exists_ends_apply {blind : Path → Prop} {r : Replica} {op : Operation}
    {answer : Except Fault Unit × Replica} (hends : Ends blind (r.applyDecided op) d answer e) :
    ∃ outcome r', Ends blind (r.apply op) d (outcome, r') e ∧
      ((outcome = .error .noSuchKey ∧ answer = (.ok (), r')) ∨
        (outcome ≠ .error .noSuchKey ∧ answer = (outcome, r'))) := by
  obtain ⟨⟨outcome, r'⟩, c, happly, hrest⟩ := fares_bind hends
  cases outcome with
  | ok _ =>
    obtain ⟨rfl, rfl⟩ := fares_done hrest
    exact ⟨_, r', happly, .inr ⟨by simp, rfl⟩⟩
  | error f =>
    cases f with
    | noSuchKey =>
      obtain ⟨rfl, rfl⟩ := fares_done hrest
      exact ⟨_, r', happly, .inl ⟨rfl, rfl⟩⟩
    | keyTooLong | valueTooLong | storageUnavailable | generic | invalidRequest | connection _
    | io _ | codec _ | setup _ =>
      obtain ⟨rfl, rfl⟩ := fares_done hrest
      exact ⟨_, r', happly, .inr ⟨by simp, rfl⟩⟩

/-- A decided operation is carried out, or a fault tells that it may not be. -/
theorem ends_applyDecided (h : settings.Housed M rs d) {r : Replica}
    (hr : r.store = settings.store) {op : Operation} (hop : op.check = .ok ())
    {answer : Except Fault Unit × Replica}
    (hends : Ends (· = settings.storePath) (r.applyDecided op) d answer e) :
    ∃ cache, (answer = (.ok (), { r with cache }) ∧ settings.Housed (op.effect M) rs e) ∨
      ((∃ f, answer = (.error f, { r with cache })) ∧
        (settings.Housed M rs e ∨ settings.Housed (op.effect M) rs e)) := by
  have hkept : ∀ c e, settings.Housed M rs c ∨ settings.Housed (op.effect M) rs c → Frayed c e →
      settings.Housed M rs e ∨ settings.Housed (op.effect M) rs e :=
    fun c e hc hfrayed => hc.imp (·.frayed hfrayed) (·.frayed hfrayed)
  obtain ⟨outcome, r', happly, hanswer⟩ := exists_ends_apply hends
  cases op with
  | put key value =>
    obtain ⟨stored, c, hput, hlast⟩ := fares_bind happly
    rw [hr] at hput
    rcases Ensures.ends (h.ensures_put hop) (settings.store.stops_put key value) hkept hput with
      ⟨rfl, hafter⟩ | ⟨⟨f, hf, rfl⟩, hC⟩
    · obtain ⟨rfl, rfl, rfl⟩ := fares_done_pair hlast
      rcases hanswer with ⟨hgone, -⟩ | ⟨-, rfl⟩
      · exact absurd hgone (by simp)
      · exact ⟨_, .inl ⟨rfl, hafter⟩⟩
    · obtain ⟨rfl, rfl, rfl⟩ := fares_done_pair hlast
      rcases hanswer with ⟨hgone, -⟩ | ⟨-, rfl⟩
      · exact absurd (Except.error.inj hgone) hf
      · exact ⟨_, .inr ⟨⟨f, rfl⟩, hC⟩⟩
  | del key =>
    obtain ⟨stored, c, hdelete, hlast⟩ := fares_bind happly
    obtain ⟨rfl, rfl, rfl⟩ := fares_done_pair hlast
    rw [hr] at hdelete
    rcases Ensures.ends (ensures_delete_any h hop) (settings.store.stops_delete key) hkept hdelete
      with ⟨hstored, hafter⟩ | ⟨⟨f, hf, rfl⟩, hC⟩
    · refine ⟨r.cache.erase key, .inl ⟨?_, hafter⟩⟩
      rcases hanswer with ⟨-, rfl⟩ | ⟨hne, rfl⟩
      · rfl
      · rw [hstored.resolve_right hne]
    · rcases hanswer with ⟨hgone, -⟩ | ⟨-, rfl⟩
      · exact absurd (Except.error.inj hgone) hf
      · exact ⟨_, .inr ⟨⟨f, rfl⟩, hC⟩⟩

end Replica

end RingStore
