import RingStore.Proofs.Replica.Failing

/-!
# A replica whose calls may fail without a trace

If a call that fails changes nothing, then a record that cannot be written is not in the journal,
and an operation that cannot be carried out leaves the store as it was. A replica whose opening
meets a failing call is not opened, and the disk is as if the opening had been cut off.
-/

namespace RingStore

open Disk Disk.Attempt

/-! ## What fails without a trace -/

namespace Store

variable {s : Store} {M M' : Contents} {key value : String} {d e : Disk}

/-- What the store holds is what the finished files tell. -/
theorem Holds.unmarked (h : s.Holds M d) (he : s.Holds M' e)
    (hsame : ∀ q, Settled q → e.at? q = d.at? q) : s.Holds M e where
  proper := he.proper
  chains := fun bucket => by
    obtain ⟨slots, n, hc, hshows⟩ := h.chains bucket
    exact ⟨slots, n, hc, fun i => (hsame _ (settled_entryPath _ _)).trans (hshows i)⟩
  short := h.short
  drafts := he.drafts

/-- Reading a key changes nothing, and a value that is read is the value of the key. -/
theorem falters_get (h : s.Holds M d) {answer : Except Fault String}
    (hfalters : Action.Falters (s.get key).run d answer e) :
    (∀ v, answer = .ok v → M key = some v) ∧ e = d := by
  have hhalts := (s.stops_get key).halts
  by_cases hok : checkKey key = .ok () ∧ d.at? s.dir = some .directory
  · obtain ⟨hanswer, rfl⟩ := hhalts.falters_of_answers (answers_get h hok.2 hok.1) hfalters
    refine ⟨?_, rfl⟩
    rintro v rfl
    rcases hanswer with heq | ⟨f, hf⟩
    · cases hM : M key with
      | some w =>
        rw [hM] at heq
        rw [Except.ok.inj heq]
      | none =>
        rw [hM] at heq
        cases heq
    · cases hf
  · obtain ⟨f, hrefused⟩ : ∃ f, (s.get key).Answers d (.error f) := by
      cases hkey : checkKey key with
      | error f => exact ⟨f, answers_get_refused hkey⟩
      | ok _ => exact exists_answers_missing (fun hdir => hok ⟨hkey, hdir⟩) (checkKey key) _
    obtain ⟨hanswer, rfl⟩ := hhalts.falters_of_answers hrefused hfalters
    refine ⟨?_, rfl⟩
    rintro v rfl
    rcases hanswer with heq | ⟨f, heq⟩ <;> cases heq

/-- A value is put, or a fault is told and the store is as it was. -/
theorem falters_put (h : s.Holds M d) {answer : Except Fault Unit}
    (hfalters : Action.Falters (s.put key value).run d answer e) :
    (answer = .ok () ∧ s.Holds (Function.update M key (some value)) e) ∨
      ((∃ f, answer = .error f) ∧ s.Holds M e) := by
  have hhalts := (s.stops_put key value).halts
  by_cases hok : checkPair key value = .ok () ∧ d.at? s.dir = some .directory
  · have hput := ensures_put h hok.2 hok.1
    rcases Action.Halts.falters hhalts hfalters with hrun | ⟨⟨f, -, rfl⟩, htrail⟩
    · have hdone := hput.2
      rw [hrun] at hdone
      exact .inl ⟨hdone.1, hdone.2.1⟩
    · refine .inr ⟨⟨f, rfl⟩, ?_⟩
      rcases hput.1 e htrail with hbefore | hafter
      · exact hbefore
      · exact h.unmarked hafter fun q hq => (s.late_put key value).at?_of_falters hfalters hq
  · obtain ⟨f, hrefused⟩ : ∃ f, (s.put key value).Answers d (.error f) := by
      cases hpair : checkPair key value with
      | error f => exact ⟨f, answers_put_refused hpair⟩
      | ok _ => exact exists_answers_missing (fun hdir => hok ⟨hpair, hdir⟩) (checkPair key value) _
    obtain ⟨hanswer, rfl⟩ := hhalts.falters_of_answers hrefused hfalters
    exact .inr ⟨hanswer.elim (fun heq => ⟨f, heq⟩) id, h⟩

/-- A key is deleted, or a fault is told and the store is as it was. -/
theorem falters_delete (h : s.Holds M d) {answer : Except Fault Unit}
    (hfalters : Action.Falters (s.delete key).run d answer e) :
    (answer = .ok () ∧ s.Holds (Function.update M key none) e) ∨
      ((∃ f, answer = .error f) ∧ s.Holds M e) := by
  have hhalts := (s.stops_delete key).halts
  by_cases hok : checkKey key = .ok () ∧ d.at? s.dir = some .directory ∧ ∃ v, M key = some v
  · obtain ⟨hkey, hdir, v, hM⟩ := hok
    have hdelete := ensures_delete h hdir hkey hM
    rcases Action.Halts.falters hhalts hfalters with hrun | ⟨⟨f, -, rfl⟩, htrail⟩
    · have hdone := hdelete.2
      rw [hrun] at hdone
      exact .inl ⟨hdone.1, hdone.2.1⟩
    · refine .inr ⟨⟨f, rfl⟩, ?_⟩
      rcases hdelete.1 e htrail with hbefore | hafter
      · exact hbefore
      · exact h.unmarked hafter fun q hq => (s.late_delete key).at?_of_falters hfalters hq
  · obtain ⟨f, hrefused⟩ : ∃ f, (s.delete key).Answers d (.error f) := by
      cases hkey : checkKey key with
      | error f => exact ⟨f, answers_delete_refused hkey⟩
      | ok _ =>
        by_cases hdir : d.at? s.dir = some .directory
        · have hM : M key = none :=
            Option.eq_none_iff_forall_ne_some.2 fun v hv => hok ⟨hkey, hdir, v, hv⟩
          exact ⟨.noSuchKey, answers_delete_none h hdir hkey hM⟩
        · exact exists_answers_missing hdir (checkKey key) _
    obtain ⟨hanswer, rfl⟩ := hhalts.falters_of_answers hrefused hfalters
    exact .inr ⟨hanswer.elim (fun heq => ⟨f, heq⟩) id, h⟩

end Store

namespace Journal

theorem late_append (j : Journal) (r : Record) : (j.append r).Late :=
  Late.map (late_writeEntry ..) _

theorem halts_next (j : Journal) : j.next.Halts := by
  unfold next
  split
  · refine Halts.bind ?_ fun _ => trivial
    refine Halts.bind ⟨fun f _ => ⟨_, ⟨.io (.disk f), by simp, rfl⟩, rfl⟩, fun _ => trivial⟩ ?_
    exact fun _ => trivial
  · exact trivial

theorem halts_extent (dir : Path) (steps index : Nat) : (extent dir steps index).Halts := by
  induction steps generalizing index with
  | zero => exact trivial
  | succ steps ih =>
    refine Halts.bind (halts_exists? _) fun found => ?_
    cases found with
    | false => exact trivial
    | true => exact ih (index + 1)

theorem halts_removeFrom (dir : Path) (size : Nat) : (removeFrom dir size).Halts := by
  have hstops : (removeFrom dir size).Stops fun _ => False :=
    Stops.bind (stops_list dir) fun _ => stops_removeNamed size _
  exact hstops.halts

theorem halts_openIn (dir : Path) : (openIn dir).Halts :=
  Halts.bind (halts_ensureDirectory dir) fun _ => Halts.bind (halts_count dir) fun _ =>
    Halts.bind (halts_extent ..) fun size => Halts.bind (halts_removeFrom dir size) fun _ => trivial

end Journal

namespace ReplicaSettings

variable {settings : ReplicaSettings} {M M' : Store.Contents} {rs rs' : List Record} {d e : Disk}

/-- What is housed is what the finished files tell. -/
theorem Housed.unmarked (h : settings.Housed M rs d) (he : settings.Housed M' rs' e)
    (hsame : ∀ q, Settled q → e.at? q = d.at? q) :
    settings.Housed M rs e where
  store := h.store.unmarked he.store hsame
  directory := he.directory
  journal :=
    { proper := he.journal.proper
      directory := he.journal.directory
      flat := he.journal.flat
      holds := fun i hi => (hsame _ (settled_entryPath _ _)).trans (h.journal.holds i hi) }

end ReplicaSettings

namespace Replica

open ReplicaSettings Action Standing

variable {settings : ReplicaSettings} {M : Store.Contents} {rs : List Record} {op : Operation}
  {d e : Disk} {r : Replica}

theorem halts_apply (r : Replica) (op : Operation) :
    (r.apply op).Halts fun a => Faulty a.1 := by
  cases op with
  | put key value =>
    have hput : Halts Faulty (r.store.put key value).run := (r.store.stops_put key value).halts
    refine Halts.bind hput ?_ ?_
    · rintro _ ⟨f, hf, rfl⟩
      exact ⟨_, ⟨f, hf, rfl⟩, rfl⟩
    · rintro (f | _) <;> exact trivial
  | del key =>
    have hdelete : Halts Faulty (r.store.delete key).run := (r.store.stops_delete key).halts
    refine Halts.bind hdelete ?_ fun _ => trivial
    rintro _ ⟨f, hf, rfl⟩
    exact ⟨_, ⟨f, hf, rfl⟩, rfl⟩

theorem halts_applyDecided (r : Replica) (op : Operation) :
    (r.applyDecided op).Halts fun a => Faulty a.1 := by
  refine Halts.bind (halts_apply r op) ?_ ?_
  · rintro ⟨_, r'⟩ ⟨f, hf, rfl⟩
    refine ⟨(.error f, r'), ⟨f, hf, rfl⟩, ?_⟩
    cases f with
    | noSuchKey => exact absurd rfl hf
    | keyTooLong | valueTooLong | storageUnavailable | generic | invalidRequest | connection _
    | io _ | codec _ | setup _ => rfl
  · rintro ⟨f | _, r'⟩
    · cases f <;> exact trivial
    · exact trivial

theorem halts_replay (phase : Phase) (steps : Nat) (r : Replica) :
    (replay phase steps r).Halts fun a => Faulty a.1 := by
  induction steps generalizing phase r with
  | zero => exact trivial
  | succ steps ih =>
    refine Halts.bind (Journal.halts_next r.journal) ?_ ?_
    · rintro _ ⟨f, hf, rfl⟩
      exact ⟨_, ⟨f, hf, rfl⟩, rfl⟩
    · rintro (f | ⟨_ | ⟨kind, length, data⟩, journal⟩)
      · exact trivial
      · exact trivial
      · cases kind with
        | put | del => exact ih _ _
        | commit =>
          cases phase with
          | pending op =>
            refine Halts.bind (halts_applyDecided _ op) ?_ ?_
            · rintro ⟨_, r'⟩ ⟨f, hf, rfl⟩
              exact ⟨_, ⟨f, hf, rfl⟩, rfl⟩
            · rintro ⟨f | _, r'⟩
              · exact trivial
              · exact ih _ _
          | ready | committed | aborted => exact ih _ _
        | abort => cases phase <;> exact ih _ _

/-- A replica is not opened if a call fails. -/
theorem halts_openWith (settings : ReplicaSettings) : (openWith settings).Halts := by
  have hstore : (Store.openIn settings.storePath Store.standardBuckets).Halts :=
    Halts.bind (halts_ensureDirectory _) fun _ => trivial
  have hcreate : (create settings).Halts :=
    Halts.bind hstore fun _ => Halts.bind (Journal.halts_openIn _) fun _ =>
      Halts.bind (x := liftM (Cache.create settings.cacheSets settings.cacheSlots)) trivial
        fun _ => trivial
  refine Halts.bind hcreate fun r => ?_
  split
  · -- reading the journal is an action that tells of a fault in its answer
    have hread : Action.Halts (fun a => ∃ b, a = .ok b ∧ Faulty b.1)
        (liftM r.recover : Attempt (Except Fault Unit × Replica)).run :=
      Action.Halts.bind (halts_replay ..) (fun b hb => ⟨_, ⟨b, rfl, hb⟩, rfl⟩) fun _ => trivial
    refine Action.Halts.bind hread ?_ ?_
    · rintro _ ⟨⟨_, r'⟩, rfl, f, hf, rfl⟩
      exact ⟨_, ⟨f, hf, rfl⟩, rfl⟩
    · rintro (f | ⟨f | _, r'⟩) <;> exact trivial
  · exact trivial

theorem falters_append (h : settings.Housed M rs d) {record : Record} {cursor : Nat}
    {answer : Except Fault Journal}
    (hfalters : Falters (Journal.append ⟨settings.journalPath, rs.length, cursor⟩ record).run d
      answer e) :
    (answer = .ok ⟨settings.journalPath, rs.length + 1, cursor⟩ ∧
      settings.Housed M (rs ++ [record]) e) ∨
    ((∃ f, answer = .error f) ∧ settings.Housed M rs e) := by
  have hends := ends_append h (Nat.le_refl _) (Nat.le_succ _) (hfalters.ends fun _ => False)
  rw [List.take_length] at hends
  rcases hends with hdone | ⟨⟨f, rfl⟩, hC⟩
  · exact .inl hdone
  · refine .inr ⟨⟨f, rfl⟩, ?_⟩
    have hsame : ∀ q, Settled q → e.at? q = d.at? q := fun q hq =>
      (Journal.late_append _ _).at?_of_falters hfalters hq
    rcases hC with hbefore | hafter
    · exact hbefore
    · exact h.unmarked hafter hsame

/-- Where it ends with a fault, a decided operation leaves everything but drafts. -/
theorem at?_of_falters_applyDecided {r r' : Replica} {f : Fault}
    (h : Falters (r.applyDecided op) d (.error f, r') e) {q : Path} (hq : Settled q) :
    e.at? q = d.at? q := by
  obtain ⟨⟨outcome, r₁⟩, c, happly, hrest⟩ := fares_bind h
  obtain ⟨rfl, rfl⟩ : outcome = .error f ∧ e = c := by
    cases outcome with
    | ok _ =>
      obtain ⟨heq, -⟩ := fares_done hrest
      exact absurd (congrArg Prod.fst heq) (by simp)
    | error g =>
      cases g with
      | noSuchKey =>
        obtain ⟨heq, -⟩ := fares_done hrest
        exact absurd (congrArg Prod.fst heq) (by simp)
      | keyTooLong | valueTooLong | storageUnavailable | generic | invalidRequest | connection _
      | io _ | codec _ | setup _ =>
        obtain ⟨heq, rfl⟩ := fares_done hrest
        exact ⟨(congrArg Prod.fst heq).symm, rfl⟩
  cases op with
  | put key value =>
    obtain ⟨stored, c, hput, hlast⟩ := fares_bind happly
    cases stored with
    | ok _ =>
      obtain ⟨heq, -⟩ := fares_done hlast
      exact absurd (congrArg Prod.fst heq) (by simp)
    | error g =>
      obtain ⟨-, rfl⟩ := fares_done hlast
      exact (r.store.late_put key value).at?_of_falters hput hq
  | del key =>
    obtain ⟨stored, c, hdelete, hlast⟩ := fares_bind happly
    obtain ⟨heq, rfl⟩ := fares_done hlast
    obtain rfl : stored = .error f := (congrArg Prod.fst heq).symm
    exact (r.store.late_delete key).at?_of_falters hdelete hq

theorem falters_applyDecided (h : settings.Housed M rs d) {r : Replica}
    (hr : r.store = settings.store) {op : Operation} (hop : op.check = .ok ())
    {answer : Except Fault Unit × Replica} (hfalters : Falters (r.applyDecided op) d answer e) :
    ∃ cache, (answer = (.ok (), { r with cache }) ∧ settings.Housed (op.effect M) rs e) ∨
      ((∃ f, answer = (.error f, { r with cache })) ∧ settings.Housed M rs e) := by
  obtain ⟨cache, hdone | ⟨⟨f, rfl⟩, hC⟩⟩ := ends_applyDecided h hr hop (hfalters.ends _)
  · exact ⟨cache, .inl hdone⟩
  · refine ⟨cache, .inr ⟨⟨f, rfl⟩, ?_⟩⟩
    rcases hC with hbefore | hafter
    · exact hbefore
    · exact h.unmarked hafter fun q hq => at?_of_falters_applyDecided hfalters hq

end Replica

end RingStore
