import RingStore.Proofs.Replica.Directories

/-!
# Opening a replica

Opening a replica where a store and a journal are kept succeeds (`ensures_openWith`). It takes up
the standing of the journal, and the store then holds what it held before, with all carried out that
the records commit (`ensures_replay`). All that it passes through on the way is kept too, so that it
can be cut off anywhere and begun again. Decisions that follow the one that counts make no
difference.
-/

namespace RingStore

open Disk Disk.Attempt

variable {settings : ReplicaSettings} {M : Store.Contents} {L : Standing} {later : List Bool}
  {rs : List Record} {d e : Disk}

namespace ReplicaSettings

theorem Stocked.stored_eq (h : settings.Stocked M rs d) : settings.stored d = M :=
  Store.value?_eq h.store

theorem Stocked.standing_eq (h : settings.Stocked M (L.log later) d) (hL : L.Valid) :
    settings.standing d = L := by
  unfold standing
  rw [Journal.recordsOn_eq h.journal.holds (by omega) fun r hr => hL.length_data_of_log hr]
  exact Standing.ofRecords_log hL later

theorem Stocked.opened (h : settings.Stocked M rs d) (he : e.Proper)
    (hopened : Opened d settings.journalPath e) : settings.Stocked M rs e where
  store := h.store.of_same he fun _ hq => hopened.at?_elsewhere (not_prefix_of_owns hq)
  journal := h.journal.opened he hopened

theorem ensures_openJournal (h : settings.Stocked M rs d) (hlen : rs.length < Journal.recordBound) :
    (Journal.openIn settings.journalPath).Ensures (settings.Stocked M rs) (fun j e =>
      j = .ok ⟨settings.journalPath, rs.length, 0⟩ ∧ settings.Housed M rs e) d := by
  have hstore : ∀ e, e.Proper → (∀ q, ¬ q <+: settings.journalPath →
      q.dropLast ≠ settings.journalPath → e.at? q = d.at? q) → settings.store.Holds M e :=
    fun e he hsame => h.store.of_same he fun q hq =>
      hsame q (not_prefix_of_owns hq) (dropLast_ne_of_owns hq)
  refine (Journal.ensures_openIn h.journal hlen).mono_proper h.store.proper ?_ ?_
  · rintro e he ⟨hjournal, hsame⟩
    exact ⟨hstore e he hsame, hjournal⟩
  · rintro j e he ⟨-, hsame⟩ ⟨rfl, hjournal⟩
    refine ⟨rfl, hstore e he hsame, ?_, hjournal⟩
    exact he.at?_above hjournal.directory (List.prefix_append _ _)

end ReplicaSettings

namespace Replica

open ReplicaSettings

/-- The store and the journal are opened, with nothing yet read of the journal. -/
theorem ensures_create (h : settings.Stocked M rs d) (hlen : rs.length < Journal.recordBound)
    {cache : Cache} (hcache : Cache.create settings.cacheSets settings.cacheSlots = .ok cache) :
    (create settings).Ensures (settings.Stocked M rs) (fun r e =>
      r = .ok ⟨settings, settings.port, settings.store, cache,
        ⟨settings.journalPath, rs.length, 0⟩, .ready⟩ ∧ settings.Housed M rs e) d := by
  have hway : settings.storePath <+: settings.journalPath := List.prefix_append _ _
  have hmade := ensures_ensureDirectory (h.journal.clear.above hway)
  have hstore : (Store.openIn settings.storePath Store.standardBuckets).Ensures
      (settings.Stocked M rs) (fun r e => r = .ok settings.store ∧ settings.Stocked M rs e) d := by
    refine Ensures.bind_ok (K := settings.Stocked M rs) (hmade.mono_proper h.store.proper ?_
      fun a e he hopened hQ => ⟨hQ.1, h.opened he (hopened.mono hway)⟩) ?_
    · intro e he hopened
      exact h.opened he (hopened.mono hway)
    · intro e hC hstocked
      exact (answers_pure settings.store e).ensures hC ⟨rfl, hstocked⟩
  refine Ensures.bind_ok hstore ?_
  intro c _ hstocked
  refine Ensures.bind_ok (ensures_openJournal hstocked hlen) ?_
  intro e hC hhoused
  rw [hcache]
  exact (answers_lift (.ok cache) e).ensures_bind ((answers_pure _ e).ensures hC ⟨rfl, hhoused⟩)

/-! ## Reading the journal -/

theorem answers_replay_end {r : Replica} {dir : Path} {size : Nat}
    (hr : r.journal = ⟨dir, size, size⟩) (phase : Phase) (steps : Nat) :
    (replay phase (steps + 1) r).Answers d (.ok (), { r with phase }) := by
  have hnext : (Journal.next ⟨dir, size, size⟩).Answers d _ :=
    Journal.answers_next_end (Nat.le_refl size)
  rw [← hr] at hnext
  exact Action.Answers.bind hnext (Action.answers_done _ _)

/-- The next record is read. -/
theorem answers_next (h : settings.Housed M rs d) (hrs : Journal.Countable rs) {r : Replica}
    {i : Nat} (hr : r.journal = ⟨settings.journalPath, rs.length, i⟩) (hi : i < rs.length) :
    r.journal.next.Answers d (.ok (some rs[i], ⟨settings.journalPath, rs.length, i + 1⟩)) := by
  rw [hr]
  exact Journal.answers_next h.journal.holds hrs.1 hi (hrs.2 _ (List.getElem_mem hi))

/-- A record that commits nothing only moves the standing. -/
theorem ensures_replay_of_none {r : Replica} {record : Record} {journal : Journal}
    (hnext : r.journal.next.Answers d (.ok (some record, journal)))
    (hnone : L.commit? record = none)
    {steps : Nat} {C : Disk → Prop} {Q : Except Fault Unit × Replica → Disk → Prop}
    (hrest : (replay (L.next record).phase steps { r with journal }).Ensures C Q d) :
    (replay L.phase (steps + 1) r).Ensures C Q d := by
  refine Action.Answers.ensures_bind hnext ?_
  obtain ⟨kind, length, data⟩ := record
  cases kind with
  | put =>
    rw [Standing.phase_next_of_vote (.inl rfl)] at hrest
    exact hrest
  | del =>
    rw [Standing.phase_next_of_vote (.inr rfl)] at hrest
    exact hrest
  | commit =>
    cases L with
    | voted op => exact absurd hnone (by simp [Standing.commit?])
    | idle | committed op | aborted op => exact hrest
  | abort => cases L <;> exact hrest

/-- The decision to carry out an operation comes where the operation waits. -/
theorem ensures_replay_of_some (h : settings.Housed M rs d) {r : Replica}
    (hstore : r.store = settings.store) {record : Record} {journal : Journal}
    (hnext : r.journal.next.Answers d (.ok (some record, journal))) {op : Operation}
    (hsome : L.commit? record = some op) (hop : op.check = .ok ()) {steps : Nat} {C : Disk → Prop}
    {Q : Except Fault Unit × Replica → Disk → Prop}
    (hway : ∀ e, settings.Housed M rs e ∨ settings.Housed (op.effect M) rs e → C e)
    (hrest : ∀ e, settings.Housed (op.effect M) rs e → (replay (L.next record).phase steps
      { r with journal, cache := cacheOf op r.cache }).Ensures C Q e) :
    (replay L.phase (steps + 1) r).Ensures C Q d := by
  refine Action.Answers.ensures_bind hnext ?_
  obtain ⟨hkind, rfl⟩ := Standing.commit?_eq_some.1 hsome
  obtain ⟨kind, length, data⟩ := record
  obtain rfl := hkind
  have happly := ensures_applyDecided h (r := { r with journal }) hstore hop
  refine Action.Ensures.bind (happly.mono hway fun a e _ hQ => hQ) ?_
  rintro - e - ⟨rfl, hafter⟩
  exact hrest e hafter

/-- The replica has taken up the standing of its journal, and its store holds the contents. -/
structure Resumed (settings : ReplicaSettings) (M : Store.Contents) (L : Standing)
    (rs : List Record) (r : Replica) (d : Disk) : Prop where
  settings_eq : r.settings = settings
  store_eq : r.store = settings.store
  journal_eq : r.journal = ⟨settings.journalPath, rs.length, r.journal.cursor⟩
  phase_eq : r.phase = L.phase
  housed : settings.Housed M rs d

/-- The journal is read to its end, and what its records commit is carried out again. -/
theorem ensures_replay (h : settings.Housed M rs d) (hrs : Journal.Countable rs)
    (hchecked : ∀ record ∈ rs, record.Checked) (hL : ∀ op, L = .voted op → op.check = .ok ())
    {steps i : Nat} (hi : i ≤ rs.length) (hsteps : rs.length < i + steps) {r : Replica}
    (hsettings : r.settings = settings) (hstore : r.store = settings.store)
    (hjournal : r.journal = ⟨settings.journalPath, rs.length, i⟩) :
    (replay L.phase steps r).Ensures
      (fun e =>
        ∃ ops, ops <+: L.redone (rs.drop i) ∧ settings.Housed (Standing.carryOut ops M) rs e)
      (fun a e => ∃ r', a = (.ok (), r') ∧
        r'.Resumed settings (Standing.carryOut (L.redone (rs.drop i)) M)
          ((rs.drop i).foldl Standing.next L) rs e) d := by
  induction steps generalizing i L M r d with
  | zero => omega
  | succ steps ih =>
    rcases Nat.lt_or_eq_of_le hi with hlt | rfl
    · have hnext := answers_next h hrs hjournal hlt
      have hL' : ∀ op, L.next rs[i] = .voted op → op.check = .ok () := fun op =>
        Standing.check_of_next hL (hchecked _ (List.getElem_mem hlt))
      rw [List.drop_eq_getElem_cons hlt, Standing.redone, List.foldl_cons]
      cases hcommit : L.commit? rs[i] with
      | none =>
        exact ensures_replay_of_none hnext hcommit (ih h hL' hlt (by omega) hsettings hstore rfl)
      | some op =>
        have hop := hL op (Standing.commit?_eq_some.1 hcommit).2
        refine ensures_replay_of_some h hstore hnext hcommit hop ?_ fun e he => ?_
        · rintro e (hbefore | hafter)
          · exact ⟨[], List.nil_prefix, hbefore⟩
          · exact ⟨[op], List.prefix_append _ _, hafter⟩
        · -- what the later records commit comes on top of this operation
          have hrest := ih (r := { r with
            journal := ⟨settings.journalPath, rs.length, i + 1⟩, cache := cacheOf op r.cache })
            he hL' hlt (by omega) hsettings hstore rfl
          refine hrest.mono ?_ fun a e _ hQ => hQ
          rintro e' ⟨ops, hops, hhoused⟩
          exact ⟨op :: ops, (List.prefix_cons_inj op).2 hops, hhoused⟩
    · rw [List.drop_length]
      have hend := answers_replay_end (d := d) hjournal L.phase steps
      refine hend.ensures ⟨[], List.nil_prefix, h⟩ ⟨_, rfl, ?_⟩
      exact ⟨hsettings, hstore, by rw [hjournal], rfl, h⟩

/-- Opening a replica takes up the standing of its journal, with what the records commit carried
out. -/
theorem ensures_openWith_records (h : settings.Stocked M rs d) (hrs : Journal.Countable rs)
    (hchecked : ∀ record ∈ rs, record.Checked) (hvotes : settings.votes = true) {cache : Cache}
    (hcache : Cache.create settings.cacheSets settings.cacheSlots = .ok cache) :
    (openWith settings).Ensures
      (fun e => ∃ ops, ops <+: Standing.idle.redone rs ∧
        settings.Stocked (Standing.carryOut ops M) rs e)
      (fun a e => ∃ r, a = .ok r ∧ r.Resumed settings
        (Standing.carryOut (Standing.idle.redone rs) M) (.ofRecords rs) rs e) d := by
  refine Ensures.bind_ok
    ((ensures_create h hrs.1 hcache).mono (fun e he => ⟨[], List.nil_prefix, he⟩)
    fun a e _ hQ => hQ) ?_
  intro e _ hhoused
  have hreplay := ensures_replay (L := .idle)
    (r := ⟨settings, settings.port, settings.store, cache, ⟨settings.journalPath, rs.length, 0⟩,
      .ready⟩)
    hhoused hrs hchecked (by simp) (Nat.zero_le _)
    (show rs.length < 0 + (rs.length + 1) by omega) rfl rfl rfl
  rw [if_pos hvotes]
  refine ensures_lift_bind (hreplay.mono ?_ fun a e _ hQ => hQ) ?_
  · rintro e ⟨ops, hops, he⟩
    exact ⟨ops, hops, he.stocked hrs.1⟩
  · rintro - e hC ⟨r, rfl, hresumed⟩
    exact (answers_pure r e).ensures hC ⟨r, rfl, hresumed⟩

/-- Opening a replica takes up the standing of its journal, with a committed operation carried
out. -/
theorem ensures_openWith_log (h : settings.Stocked M (L.log later) d) (hL : L.Valid)
    (hlen : (L.log later).length < Journal.recordBound) (hvotes : settings.votes = true)
    {cache : Cache} (hcache : Cache.create settings.cacheSets settings.cacheSlots = .ok cache) :
    (openWith settings).Ensures
      (fun e => settings.Stocked M (L.log later) e ∨ settings.Stocked (L.settle M) (L.log later) e)
      (fun a e => ∃ r, a = .ok r ∧ r.Resumed settings (L.settle M) L (L.log later) e) d := by
  have hopen := ensures_openWith_records h ⟨hlen, fun r => hL.length_data_of_log⟩
    (fun r => hL.checked_of_log) hvotes hcache
  rw [Standing.redone_log hL, Standing.carryOut_committed?, Standing.ofRecords_log hL] at hopen
  refine hopen.mono ?_ fun a e _ hQ => hQ
  rintro e ⟨ops, hops, hstocked⟩
  rcases Standing.carryOut_of_le_committed? hops M with heq | heq
  · exact .inl (heq ▸ hstocked)
  · exact .inr (heq ▸ hstocked)

end Replica

/-! ## Directories without left-over decisions -/

namespace ReplicaSettings

/-- The store holds the contents, and the journal the records of the standing. -/
structure Kept (settings : ReplicaSettings) (M : Store.Contents) (L : Standing) (d : Disk) :
    Prop where
  store : settings.store.Holds M d
  journal : Journal.Kept settings.journalPath L.records d
  valid : L.Valid

/-- Both directories are there, and nothing stale is left in the journal. -/
structure Tidy (settings : ReplicaSettings) (M : Store.Contents) (L : Standing) (d : Disk) :
    Prop where
  store : settings.store.Holds M d
  directory : d.at? settings.storePath = some .directory
  journal : Journal.Tidy settings.journalPath L.records d
  valid : L.Valid

theorem Tidy.kept (h : settings.Tidy M L d) : settings.Kept M L d where
  store := h.store
  journal := h.journal.kept L.length_records_lt
  valid := h.valid

theorem Tidy.housed (h : settings.Tidy M L d) : settings.Housed M L.records d :=
  ⟨h.store, h.directory, h.journal⟩

theorem Housed.tidy (h : settings.Housed M L.records d) (hL : L.Valid) : settings.Tidy M L d :=
  ⟨h.store, h.directory, h.journal, hL⟩

theorem Kept.stocked (h : settings.Kept M L d) : settings.Stocked M (L.log []) d := by
  rw [L.log_nil]
  exact ⟨h.store, h.journal⟩

theorem Kept.stored_eq (h : settings.Kept M L d) : settings.stored d = M := h.stocked.stored_eq

theorem Kept.standing_eq (h : settings.Kept M L d) : settings.standing d = L :=
  h.stocked.standing_eq h.valid

/-- A decided operation is carried out in one step. -/
theorem Tidy.ensures_applyDecided (h : settings.Tidy M L d) {r : Replica}
    (hr : r.store = settings.store) {op : Operation} (hop : op.check = .ok ()) :
    (r.applyDecided op).Ensures (fun e => settings.Tidy M L e ∨ settings.Tidy (op.effect M) L e)
      (fun a e =>
        (∃ cache, a = (.ok (), { r with cache })) ∧ settings.Tidy (op.effect M) L e) d := by
  refine (Replica.ensures_applyDecided h.housed hr hop).mono ?_
    fun a e _ hQ => ⟨⟨_, hQ.1⟩, hQ.2.tidy h.valid⟩
  rintro e (hbefore | hafter)
  · exact .inl (hbefore.tidy h.valid)
  · exact .inr (hafter.tidy h.valid)

end ReplicaSettings

namespace Replica

open ReplicaSettings

/-- The replica's own state is that of a standing whose contents are on the disk. -/
structure Sound (settings : ReplicaSettings) (M : Store.Contents) (L : Standing) (r : Replica)
    (d : Disk) : Prop where
  settings_eq : r.settings = settings
  store_eq : r.store = settings.store
  journal_eq : r.journal = ⟨settings.journalPath, L.records.length, r.journal.cursor⟩
  phase_eq : r.phase = L.phase
  settled : L.settle M = M
  tidy : settings.Tidy M L d

theorem ensures_openWith (h : settings.Kept M L d) (hvotes : settings.votes = true) {cache : Cache}
    (hcache : Cache.create settings.cacheSets settings.cacheSlots = .ok cache) :
    (openWith settings).Ensures (fun e => settings.Kept M L e ∨ settings.Kept (L.settle M) L e)
      (fun a e => ∃ r, a = .ok r ∧ r.Sound settings (L.settle M) L e) d := by
  have hlen : (L.log []).length < Journal.recordBound := by
    rw [L.log_nil]
    exact L.length_records_lt
  refine (ensures_openWith_log h.stocked h.valid hlen hvotes hcache).mono ?_ ?_
  · rw [L.log_nil]
    rintro e (he | he)
    · exact .inl ⟨he.store, he.journal, h.valid⟩
    · exact .inr ⟨he.store, he.journal, h.valid⟩
  · rw [L.log_nil]
    rintro a e - ⟨r, rfl, hresumed⟩
    exact ⟨r, rfl, hresumed.settings_eq, hresumed.store_eq, hresumed.journal_eq, hresumed.phase_eq,
      L.settle_settle M, hresumed.housed.tidy h.valid⟩

end Replica

end RingStore
