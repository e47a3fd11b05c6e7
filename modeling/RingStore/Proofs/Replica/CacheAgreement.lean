import RingStore.Proofs.Replica.Faltering
import RingStore.Proofs.Replica.Machine
import RingStore.Proofs.Replica.PlainMap

/-!
# The cache never disagrees with the store

A replica changes its store and its cache one after the other, and a call on a file may fail between
any two of its steps. Still the cache holds no pair that the store does not hold: an operation that
fails leaves the store as it was, and of the cache it takes away at most the pair of its key
(`Coherent.apply`). The journal is beside the store, whatever is in it (`Holds.beside`), so that to
read it again carries out operations like any others (`Coherent.replay`).
-/

namespace RingStore

open Disk Disk.Attempt Action

variable {settings : ReplicaSettings} {M : Store.Contents} {d e : Disk}

/-! ## Actions beside the store -/

/-- The path is on the way to the journal, or of a file in its directory. -/
def ReplicaSettings.Beside (settings : ReplicaSettings) (q : Path) : Prop :=
  q <+: settings.journalPath ∨ q.dropLast = settings.journalPath

/-- What is done beside the files of a store leaves what the store holds. -/
theorem Store.Holds.beside {α : Type} {x : Action α} {a : α} (h : settings.store.Holds M d)
    (hx : x.Within settings.Beside) (hfalters : Falters x d a e) : settings.store.Holds M e := by
  refine h.of_same (hfalters.proper h.proper) fun q hq => ?_
  refine hx.at?_of_ends (hfalters.ends fun _ => False) ?_
  rintro (hway | hfile)
  · exact ReplicaSettings.not_prefix_of_owns hq hway
  · exact ReplicaSettings.dropLast_ne_of_owns hq hfile

namespace Journal

variable {j j' : Journal} {record : Record}

/-- A journal stays in its directory when a record is added. -/
theorem dir_of_falters_append (h : Falters (j.append record).run d (.ok j') e) :
    j'.dir = j.dir := by
  obtain ⟨_, c, -, hlast⟩ := falters_bind_ok h
  obtain ⟨heq, -⟩ := fares_done hlast
  rw [Except.ok.inj heq]

/-- A journal stays in its directory when it is cleared. -/
theorem dir_of_falters_clear (h : Falters j.clear.run d (.ok j') e) : j'.dir = j.dir := by
  obtain ⟨_, c, -, hrest⟩ := falters_bind_ok h
  obtain ⟨_, c', -, hlast⟩ := falters_bind_ok hrest
  obtain ⟨heq, -⟩ := fares_done hlast
  rw [Except.ok.inj heq]

/-- A journal stays in its directory when a record is read. -/
theorem dir_of_falters_next {record? : Option Record}
    (h : Falters j.next.run d (.ok (record?, j')) e) : j'.dir = j.dir := by
  unfold next at h
  split at h
  · obtain ⟨r, c, -, hlast⟩ := falters_bind_ok h
    obtain ⟨heq, -⟩ := fares_done hlast
    rw [(Prod.mk.inj (Except.ok.inj heq)).2]
  · obtain ⟨heq, -⟩ := fares_done h
    rw [(Prod.mk.inj (Except.ok.inj heq)).2]

end Journal

namespace Replica

variable {r r' : Replica} {key : String} {op : Operation} {answer : Response}
  {outcome : Except Fault Unit}

/-- The replica's store holds the contents, and its cache has nothing but pairs of the contents,
each in the set of its key. -/
structure Coherent (settings : ReplicaSettings) (M : Store.Contents) (r : Replica) (d : Disk) :
    Prop where
  store_eq : r.store = settings.store
  dir_eq : r.journal.dir = settings.journalPath
  holds : settings.store.Holds M d
  placed : r.cache.Placed
  agrees : Agrees r.cache M

namespace Coherent

/-- What a replica waits for is not a matter of its cache. -/
theorem with_phase (h : r.Coherent settings M d) (phase : Phase) :
    Coherent settings M { r with phase } d :=
  ⟨h.store_eq, h.dir_eq, h.holds, h.placed, h.agrees⟩

/-- The journal is another one in the same directory, and what changed is beside the store. -/
theorem with_journal (h : r.Coherent settings M d) {journal : Journal}
    (hdir : journal.dir = r.journal.dir) (he : settings.store.Holds M e) :
    Coherent settings M { r with journal } e :=
  ⟨h.store_eq, hdir.trans h.dir_eq, he, h.placed, h.agrees⟩

/-- A disk on which the store holds the same is as good. -/
theorem of_disk (h : r.Coherent settings M d) (he : settings.store.Holds M e) :
    r.Coherent settings M e :=
  ⟨h.store_eq, h.dir_eq, he, h.placed, h.agrees⟩

/-! ## Reading -/

/-- A read caches the value that the store holds. -/
theorem get (h : r.Coherent settings M d) (hget : Falters (r.get key) d (answer, r') e) :
    r'.Coherent settings M e := by
  unfold Replica.get at hget
  split at hget
  · obtain ⟨-, rfl, rfl⟩ := fares_done_pair hget
    exact h
  split at hget
  next value cache hcached =>
    obtain ⟨-, rfl, rfl⟩ := fares_done_pair hget
    obtain rfl : (r.cache.get key).2 = cache := congrArg Prod.snd hcached
    exact ⟨h.store_eq, h.dir_eq, h.holds, h.placed.get key, h.agrees.get key⟩
  · obtain ⟨read, c, hread, hlast⟩ := fares_bind hget
    rw [h.store_eq] at hread
    obtain ⟨hvalue, rfl⟩ := Store.falters_get h.holds hread
    cases read with
    | ok value =>
      obtain ⟨-, rfl, rfl⟩ := fares_done_pair hlast
      -- what is filled in was read from the store
      exact ⟨h.store_eq, h.dir_eq, h.holds, h.placed.put key value,
        h.agrees.put (hvalue value rfl)⟩
    | error f =>
      obtain ⟨-, rfl, rfl⟩ := fares_done_pair hlast
      exact h

/-! ## Carrying operations out -/

/-- An operation that is carried out is so in store and cache, and one that fails in neither. -/
theorem apply (h : r.Coherent settings M d) (happly : Falters (r.apply op) d (outcome, r') e) :
    ∃ M', r'.Coherent settings M' e := by
  cases op with
  | put key value =>
    obtain ⟨stored, c, hput, hlast⟩ := fares_bind happly
    rw [h.store_eq] at hput
    rcases Store.falters_put h.holds hput with ⟨rfl, hafter⟩ | ⟨⟨f, rfl⟩, hbefore⟩
    · obtain ⟨-, rfl, rfl⟩ := fares_done_pair hlast
      exact ⟨_, h.store_eq, h.dir_eq, hafter, h.placed.put key value,
        h.agrees.effect (.put key value)⟩
    · obtain ⟨-, rfl, rfl⟩ := fares_done_pair hlast
      exact ⟨M, h.of_disk hbefore⟩
  | del key =>
    obtain ⟨stored, c, hdelete, hlast⟩ := fares_bind happly
    rw [h.store_eq] at hdelete
    obtain ⟨-, rfl, rfl⟩ := fares_done_pair hlast
    rcases Store.falters_delete h.holds hdelete with ⟨-, hafter⟩ | ⟨-, hbefore⟩
    · exact ⟨_, h.store_eq, h.dir_eq, hafter, h.placed.erase key, h.agrees.effect (.del key)⟩
    · -- the key keeps its value, and the cache forgets it
      exact ⟨M, h.store_eq, h.dir_eq, hbefore, h.placed.erase key, h.agrees.erase key⟩

/-- A decided operation may find its key gone: store and cache agree all the same. -/
theorem applyDecided (h : r.Coherent settings M d)
    (happly : Falters (r.applyDecided op) d (outcome, r') e) : ∃ M', r'.Coherent settings M' e := by
  obtain ⟨⟨carried, r₁⟩, c, hcarried, hlast⟩ := fares_bind happly
  obtain ⟨M', h'⟩ := h.apply hcarried
  obtain ⟨rfl, rfl⟩ : r' = r₁ ∧ e = c := by
    split at hlast
    · obtain ⟨-, rfl, rfl⟩ := fares_done_pair hlast
      rename_i heq
      exact ⟨(Prod.mk.inj heq).2.symm, rfl⟩
    · obtain ⟨-, rfl, rfl⟩ := fares_done_pair hlast
      exact ⟨rfl, rfl⟩
  exact ⟨M', h'⟩

/-- To read the journal again carries out what it commits, up to the first fault. -/
theorem replay (h : r.Coherent settings M d) {phase : Phase} {steps : Nat}
    (hreplay : Falters (Replica.replay phase steps r) d (outcome, r') e) :
    ∃ M', r'.Coherent settings M' e := by
  induction steps generalizing phase r M d with
  | zero =>
    obtain ⟨-, rfl, rfl⟩ := fares_done_pair hreplay
    exact ⟨M, h.with_phase phase⟩
  | succ steps ih =>
    obtain ⟨read, c, hread, hrest⟩ := fares_bind hreplay
    have hc := h.of_disk (h.holds.beside r.journal.within_next hread)
    rcases read with f | ⟨_ | ⟨kind, length, data⟩, journal⟩
    · obtain ⟨-, rfl, rfl⟩ := fares_done_pair hrest
      exact ⟨M, hc⟩
    · obtain ⟨-, rfl, rfl⟩ := fares_done_pair hrest
      exact ⟨M, hc.with_phase phase⟩
    · have hnext := hc.with_journal (Journal.dir_of_falters_next hread) hc.holds
      cases kind with
      | put | del => exact ih hnext hrest
      | commit =>
        cases phase with
        | pending op =>
          obtain ⟨⟨carried, r₁⟩, c', hcarried, hlast⟩ := fares_bind hrest
          obtain ⟨M', h'⟩ := hnext.applyDecided hcarried
          cases carried with
          | error f =>
            obtain ⟨-, rfl, rfl⟩ := fares_done_pair hlast
            exact ⟨M', h'⟩
          | ok _ => exact ih h' hlast
        | ready | committed | aborted => exact ih hnext hrest
      | abort => cases phase <;> exact ih hnext hrest

/-- Replaying the journal keeps store and cache in agreement. -/
theorem recover (h : r.Coherent settings M d)
    (hrecover : Falters r.recover d (outcome, r') e) : ∃ M', r'.Coherent settings M' e := by
  have hrewound : Coherent settings M { r with journal := r.journal.rewind } d :=
    h.with_journal rfl h.holds
  exact hrewound.replay hrecover

/-! ## Serving requests -/

/-- A record that is added, or not, leaves what the store holds. -/
theorem append (h : r.Coherent settings M d) {record : Record} {appended : Except Fault Journal}
    (happend : Falters (r.journal.append record).run d appended e) : settings.store.Holds M e :=
  h.holds.beside (Action.Within.mono (r.journal.within_append record) fun _ hq =>
    .inr (hq.trans h.dir_eq)) happend

/-- A vote that is recorded, or not, leaves what the store holds. -/
theorem recordVote (h : r.Coherent settings M d) {journal : Journal}
    (hvote : Falters (Replica.recordVote r.journal op) d (outcome, journal) e) :
    Coherent settings M { r with journal } e := by
  obtain ⟨cleared, c, hclear, hrest⟩ := fares_bind hvote
  have hc : settings.store.Holds M c :=
    h.holds.beside (Action.Within.mono r.journal.within_clear fun _ hq =>
      .inr (hq.trans h.dir_eq)) hclear
  cases cleared with
  | error f =>
    obtain ⟨-, rfl, rfl⟩ := fares_done_pair hrest
    exact h.of_disk hc
  | ok j =>
    have hj := h.with_journal (Journal.dir_of_falters_clear hclear) hc
    obtain ⟨appended, c', happend, hlast⟩ := fares_bind hrest
    have hc' := hj.append happend
    cases appended with
    | error f =>
      obtain ⟨-, rfl, rfl⟩ := fares_done_pair hlast
      exact hj.of_disk hc'
    | ok j' =>
      obtain ⟨-, rfl, rfl⟩ := fares_done_pair hlast
      exact hj.with_journal (Journal.dir_of_falters_append happend) hc'

/-- A vote leaves store and cache as they are. -/
theorem vote (h : r.Coherent settings M d) (hvote : Falters (r.vote op) d (answer, r') e) :
    r'.Coherent settings M e := by
  unfold Replica.vote at hvote
  split at hvote
  · obtain ⟨-, rfl, rfl⟩ := fares_done_pair hvote
    exact h
  · obtain ⟨-, rfl, rfl⟩ := fares_done_pair hvote
    exact h
  · obtain ⟨⟨recorded, journal⟩, c, hrecord, hlast⟩ := fares_bind hvote
    have hc := h.recordVote hrecord
    cases recorded with
    | error f =>
      obtain ⟨-, rfl, rfl⟩ := fares_done_pair hlast
      exact hc
    | ok _ =>
      obtain ⟨-, rfl, rfl⟩ := fares_done_pair hlast
      exact hc.with_phase (.pending op)

/-- A decision keeps store and cache in agreement. -/
theorem decide (h : r.Coherent settings M d) {commit : Bool}
    (hdecide : Falters (r.decide commit) d (answer, r') e) : ∃ M', r'.Coherent settings M' e := by
  unfold Replica.decide at hdecide
  split at hdecide
  · obtain ⟨appended, c, happend, hrest⟩ := fares_bind hdecide
    have hc := h.append happend
    cases appended with
    | error f =>
      obtain ⟨-, rfl, rfl⟩ := fares_done_pair hrest
      exact ⟨M, h.of_disk hc⟩
    | ok journal =>
      have hlogged := h.with_journal (Journal.dir_of_falters_append happend) hc
      cases commit with
      | false =>
        obtain ⟨-, rfl, rfl⟩ := fares_done_pair hrest
        exact ⟨M, hlogged.with_phase .aborted⟩
      | true =>
        obtain ⟨⟨carried, r₁⟩, c', hcarried, hlast⟩ := fares_bind hrest
        obtain ⟨M', h'⟩ := hlogged.applyDecided hcarried
        cases carried with
        | error f =>
          obtain ⟨-, rfl, rfl⟩ := fares_done_pair hlast
          exact ⟨M', h'⟩
        | ok _ =>
          obtain ⟨-, rfl, rfl⟩ := fares_done_pair hlast
          exact ⟨M', h'.with_phase .committed⟩
  · obtain ⟨-, rfl, rfl⟩ := fares_done_pair hdecide
    exact ⟨M, h⟩

/-- A replica that stands alone keeps store and cache in agreement, whatever it is asked. -/
theorem serveAlone (h : r.Coherent settings M d) {now : String} {q : Request}
    (hserve : Falters (r.serveAlone now q) d (answer, r') e) : ∃ M', r'.Coherent settings M' e := by
  cases q with
  | get key => exact ⟨M, h.get hserve⟩
  | put _ _ | del _ =>
    obtain ⟨⟨outcome, r₁⟩, c, happly, hlast⟩ := fares_bind hserve
    obtain ⟨-, rfl, rfl⟩ := fares_done_pair hlast
    exact h.apply happly
  | info | register _ _ | commit | abort =>
    obtain ⟨-, rfl, rfl⟩ := fares_done_pair hserve
    exact ⟨M, h⟩

/-- So does one that votes. -/
theorem serveVoting (h : r.Coherent settings M d) {now : String} {q : Request}
    (hserve : Falters (r.serveVoting now q) d (answer, r') e) :
    ∃ M', r'.Coherent settings M' e := by
  cases q with
  | get key => exact ⟨M, h.get hserve⟩
  | put _ _ | del _ => exact ⟨M, h.vote hserve⟩
  | commit | abort => exact h.decide hserve
  | info | register _ _ =>
    obtain ⟨-, rfl, rfl⟩ := fares_done_pair hserve
    exact ⟨M, h⟩

end Coherent

/-! ## Opening -/

theorem within_create (settings : ReplicaSettings) : (create settings).Within settings.Beside := by
  have hway : settings.storePath <+: settings.journalPath := List.prefix_append _ _
  have hstore : (Store.openIn settings.storePath Store.standardBuckets).Within settings.Beside :=
    Attempt.Within.bind (Action.Within.mono (within_ensureDirectory _) fun _ hq =>
      .inl (hq.trans hway)) fun _ => trivial
  exact Attempt.Within.bind hstore fun _ => Attempt.Within.bind (Journal.within_openIn _) fun _ =>
    Attempt.Within.bind (Store.within_lift _) fun _ => trivial

/-- A replica starts with an empty cache, which agrees with any store. -/
theorem coherent_of_create (h : settings.store.Holds M d)
    (hcreate : Falters (create settings).run d (.ok r) e) : r.Coherent settings M e := by
  have he := h.beside (within_create settings) hcreate
  obtain ⟨store, c, hstore, hrest⟩ := falters_bind_ok hcreate
  obtain ⟨journal, c', hjournal, hrest⟩ := falters_bind_ok hrest
  obtain ⟨cache, c'', hcache, hlast⟩ := falters_bind_ok hrest
  obtain ⟨heq, -⟩ := fares_done hlast
  obtain rfl := Except.ok.inj heq
  obtain ⟨hcreated, -⟩ := fares_done hcache
  obtain ⟨hdistinct, hempty⟩ := Cache.create_eq_ok hcreated.symm
  refine ⟨?_, ?_, he, Cache.placed_of_create hcreated.symm, hdistinct, fun key value hmem =>
    absurd hmem (hempty key value)⟩
  · obtain ⟨_, _, -, hlast⟩ := falters_bind_ok hstore
    obtain ⟨heq, -⟩ := fares_done hlast
    exact Except.ok.inj heq
  · obtain ⟨_, _, -, hrest⟩ := falters_bind_ok hjournal
    obtain ⟨_, _, -, hrest⟩ := falters_bind_ok hrest
    obtain ⟨_, _, -, hrest⟩ := falters_bind_ok hrest
    obtain ⟨_, _, -, hlast⟩ := falters_bind_ok hrest
    obtain ⟨heq, -⟩ := fares_done hlast
    exact congrArg Journal.dir (Except.ok.inj heq)

/-- However an opening ends, the store is one that holds something, and a replica that was opened
agrees with it. -/
theorem holds_of_opening (h : settings.store.Holds M d) {opening : Attempt Replica}
    (hopening : opening = create settings ∨ opening = openWith settings)
    {opened : Except Fault Replica} (hopen : Falters opening.run d opened e) :
    ∃ M', settings.store.Holds M' e ∧ ∀ r, opened = .ok r → r.Coherent settings M' e := by
  rcases hopening with rfl | rfl
  · refine ⟨M, h.beside (within_create settings) hopen, ?_⟩
    rintro r rfl
    exact coherent_of_create h hopen
  rcases Attempt.falters_bind hopen with ⟨f, rfl, hcreate⟩ | ⟨r₀, c, hcreate, hrest⟩
  · exact ⟨M, h.beside (within_create settings) hcreate, fun r hr => nomatch hr⟩
  have hr₀ := coherent_of_create h hcreate
  split at hrest
  · obtain ⟨lifted, c', hlift, hlast⟩ := Action.fares_bind hrest
    obtain ⟨⟨outcome, r₁⟩, c'', hrecover, hdone⟩ := Action.fares_bind hlift
    obtain ⟨rfl, rfl⟩ := fares_done hdone
    obtain ⟨M', h'⟩ := hr₀.recover hrecover
    refine ⟨M', ?_⟩
    cases outcome with
    | ok _ =>
      obtain ⟨rfl, rfl⟩ := fares_done hlast
      exact ⟨h'.holds, fun r hr => Except.ok.inj hr ▸ h'⟩
    | error f =>
      obtain ⟨rfl, rfl⟩ := fares_done hlast
      exact ⟨h'.holds, fun r hr => nomatch hr⟩
  · obtain ⟨rfl, rfl⟩ := fares_done hrest
    exact ⟨M, hr₀.holds, fun r hr => Except.ok.inj hr ▸ hr₀⟩

/-! ## What a coherent replica shows -/

/-- The replica's cache and its reads tell nothing that its store does not. -/
structure Truthful (r : Replica) (d : Disk) : Prop where
  /-- A cached pair, in whichever set, is read from the store, and is in a file of its chain. -/
  cached : ∀ (i : Fin r.cache.count) key value, (key, value) ∈ (r.cache.sets[i]).pairs →
    (r.store.get key).run.run d = (.ok value, d) ∧
      ∃ slot, d.at? (r.store.slotPath (r.store.bucketOf key) slot) =
        some (.file (Wire.encode (⟨key, value⟩ : StoredPair)))
  /-- A value that a read answers with, from the cache or not, is the store's answer. -/
  answered : ∀ key value r' e, Falters (r.get key) d (.value key value, r') e →
    (r.store.get key).run.run d = (.ok value, d)
  /-- A key that the store does not have is in no set. -/
  absent : ∀ key, r.store.value? d key = none →
    ∀ (i : Fin r.cache.count) value, (key, value) ∉ (r.cache.sets[i]).pairs

/-- A key of the contents is in a file of its chain, and is read from there. -/
theorem exists_slot_of_holds {s : Store} {value : String} (h : s.Holds M d)
    (hM : M key = some value) :
    (s.get key).run.run d = (.ok value, d) ∧
      ∃ slot, d.at? (s.slotPath (s.bucketOf key) slot) =
        some (.file (Wire.encode (⟨key, value⟩ : StoredPair))) := by
  obtain ⟨slots, n, hc, hshows⟩ := h.chains (s.bucketOf key)
  obtain ⟨i, hi⟩ := hc.complete key value rfl hM
  have hfile := hshows i
  rw [hi] at hfile
  have hdir : d.at? s.dir = some .directory := by
    have habove := h.proper _ (Store.slotPath_ne_nil s _ i) (by rw [hfile]; rfl)
    rwa [Store.slotPath, dropLast_entryPath] at habove
  have hkey := checkKey_eq_ok.2 (checkPair_eq_ok.1 (h.short key value hM)).1
  have hget := Store.answers_get h hdir hkey
  rw [hM] at hget
  exact ⟨hget.2, i, hfile⟩

/-- The value that is answered to a read is the one that the store holds. -/
theorem Coherent.value_of_get (h : r.Coherent settings M d) {value : String}
    (hget : Falters (r.get key) d (.value key value, r') e) : M key = some value := by
  unfold Replica.get at hget
  split at hget
  · obtain ⟨heq, -⟩ := fares_done_pair hget
    exact absurd heq (by simp [Response.ofFault])
  split at hget
  next w cache hcached =>
    obtain ⟨heq, -⟩ := fares_done_pair hget
    obtain rfl : value = w := (Response.value.inj heq).2
    exact h.agrees.cached key value (Cache.caches_of_get (congrArg Prod.fst hcached))
  · obtain ⟨read, c, hread, hlast⟩ := fares_bind hget
    rw [h.store_eq] at hread
    obtain ⟨hvalue, -⟩ := Store.falters_get h.holds hread
    cases read with
    | ok w =>
      obtain ⟨heq, -⟩ := fares_done_pair hlast
      obtain rfl : value = w := (Response.value.inj heq).2
      exact hvalue value rfl
    | error f =>
      obtain ⟨heq, -⟩ := fares_done_pair hlast
      exact absurd heq (by simp [Response.ofFault])

/-- A replica whose cache agrees with its store tells the truth. -/
theorem Coherent.truthful (h : r.Coherent settings M d) : r.Truthful d where
  cached i key value hmem := by
    rw [h.store_eq]
    exact exists_slot_of_holds h.holds (h.agrees.cached key value (h.placed.caches hmem))
  answered key value r' e hget := by
    rw [h.store_eq]
    exact (exists_slot_of_holds h.holds (h.value_of_get hget)).1
  absent key hnone i value hmem := by
    rw [h.store_eq, Store.value?_eq h.holds] at hnone
    have hsome := h.agrees.cached key value (h.placed.caches hmem)
    rw [hnone] at hsome
    cases hsome

end Replica

/-! ## Every run -/

namespace Machine

open Replica

variable {m m' : Machine}

/-- A replica is opened, or fails to open, serves a request on its own or as part of a cohort, or
reads its journal again. Any call on a file may fail meanwhile, and changes nothing then. -/
inductive Worked (settings : ReplicaSettings) : Machine → Machine → Prop
  | opened {d e : Disk} {r? : Option Replica} {r : Replica} {opening : Attempt Replica}
    (hopening : opening = create settings ∨ opening = openWith settings)
    (h : Falters opening.run d (.ok r) e) : Worked settings ⟨d, r?⟩ ⟨e, some r⟩
  | unopened {d e : Disk} {r? : Option Replica} {f : Fault} {opening : Attempt Replica}
    (hopening : opening = create settings ∨ opening = openWith settings)
    (h : Falters opening.run d (.error f) e) : Worked settings ⟨d, r?⟩ ⟨e, none⟩
  | alone {d e : Disk} {r r' : Replica} {now : String} {q : Request} {answer : Response}
    (h : Falters (r.serveAlone now q) d (answer, r') e) : Worked settings ⟨d, some r⟩ ⟨e, some r'⟩
  | voting {d e : Disk} {r r' : Replica} {now : String} {q : Request} {answer : Response}
    (h : Falters (r.serveVoting now q) d (answer, r') e) : Worked settings ⟨d, some r⟩ ⟨e, some r'⟩
  | recovered {d e : Disk} {r r' : Replica} {outcome : Except Fault Unit}
    (h : Falters r.recover d (outcome, r') e) : Worked settings ⟨d, some r⟩ ⟨e, some r'⟩

/-- The store on the disk holds something, and the replica agrees with it if one runs. -/
def Sane (settings : ReplicaSettings) (m : Machine) : Prop :=
  ∃ M, settings.store.Holds M m.disk ∧ ∀ r, m.replica? = some r → r.Coherent settings M m.disk

theorem sane_of_coherent {r : Replica} (h : ∃ M, r.Coherent settings M d) :
    Sane settings ⟨d, some r⟩ := by
  obtain ⟨M, h⟩ := h
  exact ⟨M, h.holds, fun r' hr' => Option.some.inj hr' ▸ h⟩

/-- Nothing that a machine does brings its cache out of agreement. -/
theorem Sane.step (h : Sane settings m) (hstep : Worked settings m m') : Sane settings m' := by
  obtain ⟨M, hholds, hcoherent⟩ := h
  cases hstep with
  | opened hopening hopen =>
    obtain ⟨M', -, h'⟩ := holds_of_opening hholds hopening hopen
    exact sane_of_coherent ⟨M', h' _ rfl⟩
  | unopened hopening hopen =>
    obtain ⟨M', he, -⟩ := holds_of_opening hholds hopening hopen
    exact ⟨M', he, fun r hr => nomatch hr⟩
  | alone hserve => exact sane_of_coherent ((hcoherent _ rfl).serveAlone hserve)
  | voting hserve => exact sane_of_coherent ((hcoherent _ rfl).serveVoting hserve)
  | recovered hrecover => exact sane_of_coherent ((hcoherent _ rfl).recover hrecover)

/-- However a machine has worked, its cache agrees with its store. -/
theorem Sane.run (h : Sane settings m) (hrun : Relation.ReflTransGen (Worked settings) m m') :
    Sane settings m' := by
  induction hrun with
  | refl => exact h
  | tail _ hstep ih => exact ih.step hstep

/-- From a disk that holds a store on, empty or not, the cache of a replica never disagrees with the
store: whatever is requested, in whichever mode, and wherever the calls on files fail. -/
theorem cache_agrees_with_store (hstore : settings.store.Holds M d) {r : Replica}
    (hrun : Relation.ReflTransGen (Worked settings) ⟨d, none⟩ ⟨e, some r⟩) : r.Truthful e := by
  have hstart : Sane settings ⟨d, none⟩ := ⟨M, hstore, fun r hr => nomatch hr⟩
  obtain ⟨M', -, hcoherent⟩ := hstart.run hrun
  exact (hcoherent r rfl).truthful

/-- A value is put, and a second one for the same key fails because the key's file cannot be read:
the first one stays, cached and stored. -/
theorem cache_agrees_with_store_unread :
    ∃ d r e r', (openWith (.ofDataDir "data")).run.run Disk.empty = (.ok r, d) ∧
      (r.serveAlone "" (.put "k" "v")).run d = ((.success, r'), e) ∧
      Falters (r'.serveAlone "" (.put "k" "w")) e (.ofFault (.io (.disk .device)), r') e ∧
      r'.cache.Caches "k" "v" ∧ r'.Truthful e := by
  obtain ⟨c, hc⟩ := Cache.exists_create
    (show 0 < (ReplicaSettings.ofDataDir "data").cacheSets by decide)
    (show 2 ≤ (ReplicaSettings.ofDataDir "data").cacheSlots by decide)
  have hvacant := vacant_empty (ReplicaSettings.ofDataDir "data").storePath
  obtain ⟨-, r, hopen, hr⟩ := ensures_opening hvacant hc (.inr rfl)
  obtain ⟨d, hopened, hr⟩ : ∃ d, (openWith (.ofDataDir "data")).run.run Disk.empty = (.ok r, d) ∧
      r.Mirrors (.ofDataDir "data") .fresh [] d := ⟨_, Prod.ext hopen rfl, hr⟩
  have hcheck : ∀ value ∈ ["v", "w"], checkPair "k" value = .ok () := by decide
  have happly := ensures_apply hr.housed hr.store_eq
    (show (Operation.put "k" "v").check = .ok () from hcheck _ (by simp)) fun hnone => nomatch hnone
  obtain ⟨e, happlied, hhoused⟩ : ∃ e, (r.apply (.put "k" "v")).run d =
      ((.ok (), { r with cache := r.cache.put "k" "v" }), e) ∧
      ReplicaSettings.Housed (.ofDataDir "data")
        ((Operation.put "k" "v").effect PlainReplica.fresh.contents) [] e :=
    ⟨_, Prod.ext happly.2.1 rfl, happly.2.2⟩
  -- the first put meets no failing call, the second one fails at the first read
  have hput : (r.serveAlone "" (.put "k" "v")).run d =
      ((.success, { r with cache := r.cache.put "k" "v" }), e) := by
    show ((r.apply (.put "k" "v")).bind fun a => .done (Response.ofResult a.1, a.2)).run d = _
    rw [run_bind, happlied]
    rfl
  have hfails :
      Falters (Replica.serveAlone "" { r with cache := r.cache.put "k" "v" } (.put "k" "w"))
      e (.ofFault (.io (.disk .device)), { r with cache := r.cache.put "k" "v" }) e := by
    have hunread : Falters ((ReplicaSettings.ofDataDir "data").store.put "k" "w").run e
        (.error (.io (.disk .device))) e :=
      Store.fares_put_unread hhoused.directory (hcheck "w" (by simp)) (by decide)
    rw [← hr.store_eq] at hunread
    exact Fares.bind (Fares.bind hunread .done) .done
  refine ⟨d, r, e, _, hopened, hput, hfails, Cache.caches_put_self .., ?_⟩
  apply cache_agrees_with_store (Store.holds_of_vacant hvacant)
  exact .tail (.tail (.tail .refl (.opened (.inr rfl) (fares_of_run hopened)))
    (.alone (fares_of_run hput))) (.alone hfails)

end Machine

end RingStore
