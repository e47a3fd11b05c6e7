import RingStore.Replica
import RingStore.Proofs.Journal.Contents
import RingStore.Proofs.Journal.VoteRecord
import RingStore.Proofs.Store.Contents

/-!
# Where a replica stands

The records of a journal tell how far the last transaction has come: its standing, and which
operations they commit on the way to it (`Standing.redone`). A directory is `Kept` for a replica if
its store holds contents and its journal the records of a standing. This is all that is sure after a
crash. A running replica is `Sound` if moreover its own state is that of the standing, nothing stale
is left in the journal, and a committed operation is carried out.
-/

namespace RingStore

open Disk Disk.Attempt

/-- How far the last transaction has come, as a journal tells. -/
inductive Standing
  /-- There is no vote. -/
  | idle
  /-- There is a vote without a decision. -/
  | voted (op : Operation)
  /-- The vote is followed by the decision to carry out. -/
  | committed (op : Operation)
  /-- The vote is followed by the decision to drop. -/
  | aborted (op : Operation)
  deriving DecidableEq, Repr

namespace Standing

/-- The standing after one more record. -/
def next (L : Standing) (r : Record) : Standing :=
  match r.kind, L with
  | .put, _ | .del, _ => (r.operation?.map voted).getD L
  | .commit, voted op => committed op
  | .abort, voted op => aborted op
  | _, _ => L

/-- The standing that the records of a journal tell of. -/
def ofRecords (rs : List Record) : Standing := rs.foldl next idle

/-- The records that a journal holds at a standing. -/
def records : Standing → List Record
  | idle => []
  | voted op => [.ofVote op]
  | committed op => [.ofVote op, .ofDecision true]
  | aborted op => [.ofVote op, .ofDecision false]

/-- The records that a journal holds at a standing if decisions follow the one that counts. -/
def log (L : Standing) (later : List Bool) : List Record :=
  match L with
  | idle | voted _ => L.records
  | committed _ | aborted _ => L.records ++ later.map .ofDecision

/-- The phase of a replica at a standing. -/
def phase : Standing → Phase
  | idle => .ready
  | voted op => .pending op
  | committed _ => .committed
  | aborted _ => .aborted

/-- The operation of the last vote. -/
def operation? : Standing → Option Operation
  | idle => none
  | voted op | committed op | aborted op => some op

/-- The contents with a committed operation carried out. -/
def settle (L : Standing) (M : Store.Contents) : Store.Contents :=
  match L with
  | committed op => op.effect M
  | _ => M

/-- The operation was found within the limits, and has no zero byte. -/
def Valid (L : Standing) : Prop := ∀ op ∈ L.operation?, op.check = .ok () ∧ op.ZeroFree

/-- Settling twice is settling once. -/
theorem settle_settle (L : Standing) (M : Store.Contents) : L.settle (L.settle M) = L.settle M := by
  cases L with
  | committed op => exact op.effect_effect M
  | idle | voted op | aborted op => rfl

theorem length_records_le (L : Standing) : L.records.length ≤ 2 := by
  cases L <;> simp [records]

theorem length_records_lt (L : Standing) : L.records.length < Journal.recordBound := by
  have hle := L.length_records_le
  have hbig : 2 < Journal.recordBound := by decide
  omega

theorem valid_idle : idle.Valid := by simp [Valid, operation?]

theorem valid_voted {op : Operation} (hcheck : op.check = .ok ()) (hfree : op.ZeroFree) :
    (voted op).Valid := by
  simp [Valid, operation?, hcheck, hfree]

theorem log_nil (L : Standing) : L.log [] = L.records := by
  cases L <;> simp [log]

theorem length_data_ofDecision (b : Bool) : (Record.ofDecision b).data.length < Nat.pow 256 8 := by
  cases b <;> decide

/-- A record of a standing is that of its vote, or of a decision. -/
theorem mem_log {L : Standing} {later : List Bool} {r : Record} (hr : r ∈ L.log later) :
    (∃ op ∈ L.operation?, r = .ofVote op) ∨ ∃ b, r = .ofDecision b := by
  cases L with
  | idle => simp [log, records] at hr
  | voted op => exact .inl ⟨op, rfl, List.mem_singleton.1 hr⟩
  | committed op | aborted op =>
    rcases List.mem_append.1 hr with hr | hr
    · rcases List.mem_pair.1 hr with rfl | rfl
      · exact .inl ⟨op, rfl, rfl⟩
      · exact .inr ⟨_, rfl⟩
    · obtain ⟨b, -, rfl⟩ := List.mem_map.1 hr
      exact .inr ⟨b, rfl⟩

/-- Every record is short enough to be read back. -/
theorem Valid.length_data_of_log {L : Standing} (h : L.Valid) {later : List Bool} {r : Record}
    (hr : r ∈ L.log later) : r.data.length < Nat.pow 256 8 := by
  rcases mem_log hr with ⟨op, hop, rfl⟩ | ⟨b, rfl⟩
  · exact Record.length_data_ofVote_lt (h op hop).1
  · exact length_data_ofDecision b

/-- Every record tells of an operation within the limits, if it tells of any. -/
theorem Valid.checked_of_log {L : Standing} (h : L.Valid) {later : List Bool} {r : Record}
    (hr : r ∈ L.log later) : r.Checked := by
  rcases mem_log hr with ⟨op, hop, rfl⟩ | ⟨b, rfl⟩
  · exact Record.checked_ofVote (h op hop).1 (h op hop).2
  · exact Record.checked_ofDecision b

/-- The record of a vote brings the replica to it, whatever was before. -/
theorem next_ofVote (L : Standing) {op : Operation} (h : op.ZeroFree) :
    L.next (.ofVote op) = voted op := by
  have hop := (Record.operation?_ofVote_iff op).2 h
  cases op with
  | put key value =>
    show ((Record.ofVote (.put key value)).operation?.map voted).getD L = _
    rw [hop]
    rfl
  | del key =>
    show ((Record.ofVote (.del key)).operation?.map voted).getD L = _
    rw [hop]
    rfl

theorem phase_next_of_vote {L : Standing} {r : Record} (h : r.kind = .put ∨ r.kind = .del) :
    (L.next r).phase = (r.operation?.map .pending).getD L.phase := by
  have hnext : L.next r = (r.operation?.map voted).getD L := by
    rcases h with h | h <;> simp only [next, h]
  rw [hnext]
  cases r.operation? <;> rfl

/-- An operation that waits was voted on before, or the record tells of it. -/
theorem check_of_next {L : Standing} {r : Record} {op : Operation}
    (hL : ∀ op, L = voted op → op.check = .ok ()) (hr : r.Checked) (h : L.next r = voted op) :
    op.check = .ok () := by
  have hvote : (r.operation?.map voted).getD L = voted op → op.check = .ok () := by
    cases hop : r.operation? with
    | none => exact hL op
    | some op' =>
      intro heq
      obtain rfl := Standing.voted.inj heq
      exact hr _ hop
  cases hkind : r.kind with
  | put | del =>
    simp only [next, hkind] at h
    exact hvote h
  | commit | abort => cases L <;> simp [next, hkind] at h

/-- A decision that follows the one that counts is passed over. -/
theorem next_ofDecision (L : Standing) (h : ∀ op, L ≠ voted op) (b : Bool) :
    L.next (.ofDecision b) = L := by
  cases L with
  | voted op => exact absurd rfl (h op)
  | idle | committed op | aborted op => cases b <;> rfl

/-- Decisions make no difference where there is no vote. -/
theorem foldl_next_ofDecision (L : Standing) (h : ∀ op, L ≠ voted op) (later : List Bool) :
    (later.map Record.ofDecision).foldl next L = L := by
  induction later with
  | nil => rfl
  | cons b later ih =>
    rw [List.map_cons, List.foldl_cons, next_ofDecision L h]
    exact ih

/-- The records of a standing tell of it. -/
theorem ofRecords_log {L : Standing} (h : L.Valid) (later : List Bool) :
    ofRecords (L.log later) = L := by
  cases L with
  | idle => rfl
  | voted op => exact next_ofVote idle (h op rfl).2
  | committed op =>
    simp only [ofRecords, log, records, List.cons_append, List.nil_append, List.foldl_cons,
      next_ofVote idle (h op rfl).2]
    exact foldl_next_ofDecision (committed op) (by simp) later
  | aborted op =>
    simp only [ofRecords, log, records, List.cons_append, List.nil_append, List.foldl_cons,
      next_ofVote idle (h op rfl).2]
    exact foldl_next_ofDecision (aborted op) (by simp) later

/-! ## What records commit -/

/-- The contents after some operations. -/
def carryOut (ops : List Operation) (M : Store.Contents) : Store.Contents :=
  ops.foldl (fun M op => op.effect M) M

theorem carryOut_append (ops ops' : List Operation) (M : Store.Contents) :
    carryOut (ops ++ ops') M = carryOut ops' (carryOut ops M) := List.foldl_append

/-- The operation that one more record commits. -/
def commit? (L : Standing) (r : Record) : Option Operation :=
  match r.kind, L with
  | .commit, voted op => some op
  | _, _ => none

theorem commit?_eq_some {L : Standing} {r : Record} {op : Operation} :
    L.commit? r = some op ↔ r.kind = .commit ∧ L = voted op := by
  cases hkind : r.kind <;> cases L <;> simp [commit?, hkind]

/-- The operations that records commit, one after the other, from a standing on. -/
def redone (L : Standing) : List Record → List Operation
  | [] => []
  | r :: rs => (L.commit? r).toList ++ (L.next r).redone rs

/-- What is redone of a journal is redone of its parts. -/
theorem redone_append (L : Standing) (rs rs' : List Record) :
    L.redone (rs ++ rs') = L.redone rs ++ (rs.foldl next L).redone rs' := by
  induction rs generalizing L with
  | nil => rfl
  | cons r rs ih => simp [redone, ih]

theorem redone_cons_ofVote (L : Standing) {op : Operation} (h : op.ZeroFree) (rs : List Record) :
    L.redone (.ofVote op :: rs) = (voted op).redone rs := by
  have hnone : L.commit? (.ofVote op) = none := by cases op <;> rfl
  rw [redone, hnone, next_ofVote L h]
  rfl

/-- Decisions that follow the one that counts commit nothing. -/
theorem redone_ofDecision (L : Standing) (h : ∀ op, L ≠ voted op) (later : List Bool) :
    L.redone (later.map .ofDecision) = [] := by
  induction later with
  | nil => rfl
  | cons b later ih =>
    have hnone : L.commit? (.ofDecision b) = none := by
      cases L with
      | voted op => exact absurd rfl (h op)
      | idle | committed op | aborted op => cases b <;> rfl
    rw [List.map_cons, redone, hnone, next_ofDecision L h, ih]
    rfl

/-- The operation that is committed at a standing, if there is one. -/
def committed? : Standing → Option Operation
  | committed op => some op
  | _ => none

theorem carryOut_committed? (L : Standing) (M : Store.Contents) :
    carryOut L.committed?.toList M = L.settle M := by
  cases L <;> rfl

/-- A part of what is committed at a standing is nothing or all of it. -/
theorem carryOut_of_le_committed? {L : Standing} {ops : List Operation}
    (h : ops <+: L.committed?.toList) (M : Store.Contents) :
    carryOut ops M = M ∨ carryOut ops M = L.settle M := by
  cases ops with
  | nil => exact .inl rfl
  | cons op ops =>
    have hlen : L.committed?.toList.length ≤ 1 := by cases L.committed? <;> simp
    have hle := h.length_le
    rw [List.length_cons] at hle
    rw [← carryOut_committed?, h.eq_of_length (by rw [List.length_cons]; omega)]
    exact .inr rfl

/-- The records of a standing commit the operation that is committed at it. -/
theorem redone_log {L : Standing} (h : L.Valid) (later : List Bool) :
    idle.redone (L.log later) = L.committed?.toList := by
  cases L with
  | idle => rfl
  | voted op => exact redone_cons_ofVote idle (h op rfl).2 []
  | committed op =>
    have hlater := redone_ofDecision (committed op) (by simp) later
    exact (redone_cons_ofVote idle (h op rfl).2 _).trans (congrArg (op :: ·) hlater)
  | aborted op =>
    have hlater := redone_ofDecision (aborted op) (by simp) later
    exact (redone_cons_ofVote idle (h op rfl).2 _).trans hlater

end Standing

/-! ## The disk of a replica -/

namespace ReplicaSettings

/-- The store of a replica. -/
def store (settings : ReplicaSettings) : Store := ⟨settings.storePath, Store.standardBuckets⟩

/-- The value that the store on a disk has for a key. -/
def stored (settings : ReplicaSettings) (d : Disk) : Store.Contents := settings.store.value? d

end ReplicaSettings

/-- The standing that the journal on a disk tells of. -/
def ReplicaSettings.standing (settings : ReplicaSettings) (d : Disk) : Standing :=
  .ofRecords (Journal.recordsOn settings.journalPath d)

end RingStore
