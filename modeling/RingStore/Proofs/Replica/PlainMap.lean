import RingStore.Proofs.Cache.Pairs
import RingStore.Proofs.Replica.Machine

/-!
# A replica is a map with at most one pending operation

Whatever its cache keeps, however the keys of its store collide and whatever its journal records, a
replica answers requests as a plain map does beside which one operation may wait for a decision
(`answers_as_plain`). The map and the operation are `PlainReplica`; a replica `Mirrors` it if its
store holds the map, its cache agrees with the map, and the same operation is pending.
-/

namespace RingStore

open Disk Disk.Attempt

variable {settings : ReplicaSettings}

/-! ## The plain replica -/

/-- The first limit that an operation is over, if there is one: the key is looked at first. -/
def Operation.excess? (op : Operation) : Option Fault :=
  if maxKeyBytes < Text.size op.key then some .keyTooLong
  else if op.value?.any (maxValueBytes < Text.size ·) then some .valueTooLong
  else none

/-- The check of an operation finds what is too long in it. -/
theorem Operation.check_eq (op : Operation) :
    op.check = match op.excess? with | some f => .error f | none => .ok () := by
  cases op with
  | put key value =>
    by_cases hkey : maxKeyBytes < Text.size key
    · simp [check, checkPair, checkKey, excess?, Operation.key, hkey, bind, Except.bind]
    · by_cases hvalue : maxValueBytes < Text.size value
      · simp [check, checkPair, checkKey, checkValue, excess?, Operation.key, Operation.value?,
          hkey, hvalue, bind, Except.bind]
      · simp [check, checkPair, checkKey, checkValue, excess?, Operation.key, Operation.value?,
          hkey, hvalue, bind, Except.bind]
  | del key =>
    by_cases hkey : maxKeyBytes < Text.size key
    · simp [check, checkKey, excess?, Operation.key, hkey]
    · simp [check, checkKey, excess?, Operation.key, Operation.value?, hkey]

theorem Operation.excess?_of_error {op : Operation} {f : Fault} (h : op.check = .error f) :
    op.excess? = some f := by
  rw [op.check_eq] at h
  cases hexcess : op.excess? with
  | none => simp [hexcess] at h
  | some f' => simpa [hexcess] using h

theorem Operation.excess?_of_ok {op : Operation} (h : op.check = .ok ()) : op.excess? = none := by
  rw [op.check_eq] at h
  cases hexcess : op.excess? with
  | none => rfl
  | some f => simp [hexcess] at h

/-- A map, and the operation that waits for a decision, if there is one. -/
structure PlainReplica where
  contents : Store.Contents
  pending? : Option Operation

namespace PlainReplica

/-- Nothing is in the map, and nothing is pending. -/
def fresh : PlainReplica := ⟨fun _ => none, none⟩

/-- What reading a key answers. -/
def read (p : PlainReplica) (key : String) : Response :=
  if maxKeyBytes < Text.size key then .ofFault .keyTooLong
  else
    match p.contents key with
    | some value => .value key value
    | none => .ofFault .noSuchKey

/-- Carries an operation out at once. Only a key that is in the map can be deleted. -/
def write (p : PlainReplica) (op : Operation) : Response × PlainReplica :=
  match op.excess? with
  | some f => (.ofFault f, p)
  | none =>
    if op.value? = none ∧ p.contents op.key = none then (.ofFault .noSuchKey, p)
    else (.success, { p with contents := op.effect p.contents })

/-- An operation that is too long is answered with its fault and changes nothing. -/
theorem write_of_error {p : PlainReplica} {op : Operation} {f : Fault} (h : op.check = .error f) :
    p.write op = (.ofFault f, p) := by
  unfold write
  rw [Operation.excess?_of_error h]

/-- An operation that is short enough is carried out, unless it deletes what is not there. -/
theorem write_of_ok {p : PlainReplica} {op : Operation} (h : op.check = .ok ()) :
    p.write op = if op.value? = none ∧ p.contents op.key = none then (.ofFault .noSuchKey, p)
      else (.success, { p with contents := op.effect p.contents }) := by
  unfold write
  rw [Operation.excess?_of_ok h]

/-- Makes an operation the pending one, unless one is pending or it is over a limit. -/
def vote (p : PlainReplica) (op : Operation) : Response × PlainReplica :=
  match p.pending?, op.excess? with
  | some _, _ => (.ofFault .invalidRequest, p)
  | none, some f => (.voteAbort f.message, p)
  | none, none => (.voteCommit, { p with pending? := some op })

/-- While an operation waits for its decision, no other is voted on. -/
theorem vote_of_pending {p : PlainReplica} {op' : Operation} (h : p.pending? = some op')
    (op : Operation) : p.vote op = (.ofFault .invalidRequest, p) := by
  unfold vote
  rw [h]

/-- An operation that is too long is voted against. -/
theorem vote_of_error {p : PlainReplica} {op : Operation} {f : Fault} (hp : p.pending? = none)
    (h : op.check = .error f) : p.vote op = (.voteAbort f.message, p) := by
  unfold vote
  rw [hp, Operation.excess?_of_error h]

/-- An operation that is short enough is voted for, and waits for its decision. -/
theorem vote_of_ok {p : PlainReplica} {op : Operation} (hp : p.pending? = none)
    (h : op.check = .ok ()) : p.vote op = (.voteCommit, { p with pending? := some op }) := by
  unfold vote
  rw [hp, Operation.excess?_of_ok h]

/-- Carries the pending operation out, or drops it. -/
def decide (p : PlainReplica) (commit : Bool) : Response × PlainReplica :=
  match p.pending? with
  | some op => (.ack, ⟨if commit then op.effect p.contents else p.contents, none⟩)
  | none => (.ack, p)

/-- Serves a request at a time, as the settings say. -/
def serve (settings : ReplicaSettings) (now : String) (p : PlainReplica) (q : Request) :
    Response × PlainReplica :=
  match q, settings.votes with
  | .get key, _ => (p.read key, p)
  | .info, _ => (.report (infoHeader now ++ addressLine settings.host settings.port), p)
  | .put key value, true => p.vote (.put key value)
  | .del key, true => p.vote (.del key)
  | .commit, true => p.decide true
  | .abort, true => p.decide false
  | .put key value, false => p.write (.put key value)
  | .del key, false => p.write (.del key)
  | .commit, false | .abort, false | .register _ _, _ => (.ofFault .invalidRequest, p)

/-- Serves requests one after the other. -/
def serveAll (settings : ReplicaSettings) (p : PlainReplica) :
    List (String × Request) → List Response × PlainReplica
  | [] => ([], p)
  | (now, q) :: rest =>
    let (answer, p) := p.serve settings now q
    let (answers, p) := p.serveAll settings rest
    (answer :: answers, p)

end PlainReplica

namespace Replica

open ReplicaSettings

variable {r : Replica} {p : PlainReplica} {d e : Disk} {rs : List Record}

/-- Serves requests one after the other. -/
def serveAll (r : Replica) : List (String × Request) → Action (List Response × Replica)
  | [] => return ([], r)
  | (now, q) :: rest => do
    let (answer, r) ← r.serve now q
    let (answers, r) ← r.serveAll rest
    return (answer :: answers, r)

/-- The cache agrees with the map: no key is in it twice, and what it has for a key is in the
map. -/
structure Agrees (c : Cache) (M : Store.Contents) : Prop where
  distinct : c.Distinct
  cached : ∀ key value, c.Caches key value → M key = some value

/-- The replica's store holds the map, its cache agrees with it, and it waits for the decision on
the pending operation. Its journal has room for that decision. -/
structure Mirrors (settings : ReplicaSettings) (p : PlainReplica) (rs : List Record) (r : Replica)
    (d : Disk) : Prop where
  settings_eq : r.settings = settings
  port_eq : r.port = settings.port
  store_eq : r.store = settings.store
  journal_eq : r.journal = ⟨settings.journalPath, rs.length, r.journal.cursor⟩
  room : rs.length + p.pending?.toList.length ≤ 2
  housed : settings.Housed p.contents rs d
  cache : Agrees r.cache p.contents
  pending : r.phase.pending? = p.pending?
  checked : ∀ op ∈ p.pending?, op.check = .ok ()

/-- The action ends with the answer, and with a replica that mirrors the plain one. -/
def Answering (settings : ReplicaSettings) (o : Response × PlainReplica)
    (x : Action (Response × Replica)) (d : Disk) : Prop :=
  x.Ensures (fun _ => True) (fun a e => a.1 = o.1 ∧ ∃ rs, a.2.Mirrors settings o.2 rs e) d

/-! ## The cache -/

/-- A read takes nothing from the cache that was right. -/
theorem Agrees.get {c : Cache} {M : Store.Contents} (h : Agrees c M) (key : String) :
    Agrees (c.get key).2 M where
  distinct := h.distinct.get key
  cached := fun key' value hc => h.cached key' value (Cache.caches_get hc)

/-- What is in the contents may come into the cache. -/
theorem Agrees.put {c : Cache} {M : Store.Contents} {key value : String} (h : Agrees c M)
    (hM : M key = some value) : Agrees (c.put key value) M where
  distinct := h.distinct.put key value
  cached := by
    intro key' w hc
    rcases Cache.caches_put hc with ⟨rfl, rfl⟩ | ⟨-, hold⟩
    · exact hM
    · exact h.cached key' w hold

/-- The cache goes along with the map. -/
theorem Agrees.effect {c : Cache} {M : Store.Contents} (h : Agrees c M) (op : Operation) :
    Agrees (cacheOf op c) (op.effect M) := by
  cases op with
  | put key value =>
    refine ⟨h.distinct.put key value, fun key' w hc => ?_⟩
    rcases Cache.caches_put hc with ⟨rfl, rfl⟩ | ⟨hne, hold⟩
    · exact Function.update_self ..
    · exact (Function.update_of_ne hne ..).trans (h.cached key' w hold)
  | del key =>
    refine ⟨h.distinct.erase key, fun key' w hc => ?_⟩
    obtain ⟨hne, hold⟩ := Cache.caches_erase h.distinct hc
    exact (Function.update_of_ne hne ..).trans (h.cached key' w hold)

/-- A cache may forget a key. -/
theorem Agrees.erase {c : Cache} {M : Store.Contents} (h : Agrees c M) (key : String) :
    Agrees (c.erase key) M :=
  ⟨h.distinct.erase key, fun key' w hc => h.cached key' w (Cache.caches_erase h.distinct hc).2⟩

/-! ## Serving a request -/

/-- Any cache will do that agrees with the contents. -/
theorem Mirrors.with_cache (h : r.Mirrors settings p rs d) {c : Cache} (hc : Agrees c p.contents) :
    Mirrors settings p rs { r with cache := c } d :=
  ⟨h.settings_eq, h.port_eq, h.store_eq, h.journal_eq, h.room, h.housed, hc, h.pending, h.checked⟩

/-- An answer that touches no disk leaves replica and map as they are. -/
theorem Mirrors.answering_done (h : r.Mirrors settings p rs d) (answer : Response) :
    Answering settings (answer, p) (.done (answer, r)) d :=
  Action.ensures_done.2 ⟨trivial, rfl, rs, h⟩

/-- A replica reads a key as the map does. -/
theorem Mirrors.get (h : r.Mirrors settings p rs d) (key : String) :
    Answering settings (p.read key, p) (r.get key) d := by
  unfold Replica.get PlainReplica.read
  by_cases hkey : maxKeyBytes < Text.size key
  · have hcheck : checkKey key = .error .keyTooLong := if_pos hkey
    rw [hcheck, if_pos hkey]
    exact h.answering_done _
  have hcheck : checkKey key = .ok () := if_neg hkey
  rw [hcheck, if_neg hkey]
  cases hcached : (r.cache.get key).1 with
  | some value =>
    -- what the cache has is in the map
    rw [h.cache.cached key value (Cache.caches_of_get hcached),
      show r.cache.get key = (some value, (r.cache.get key).2) from Prod.ext hcached rfl]
    exact (h.with_cache (h.cache.get key)).answering_done _
  | none =>
    rw [show r.cache.get key = (none, (r.cache.get key).2) from Prod.ext hcached rfl]
    have hget := Store.answers_get h.housed.store h.housed.directory hcheck
    rw [← h.store_eq] at hget
    cases hM : p.contents key with
    | some value =>
      rw [hM] at hget
      exact Action.Answers.ensures_bind hget
        ((h.with_cache (h.cache.put hM)).answering_done (.value key value))
    | none =>
      rw [hM] at hget
      exact Action.Answers.ensures_bind hget (h.answering_done (.ofFault .noSuchKey))

/-- Once its files hold the effect of an operation, the replica mirrors the map with that effect. -/
theorem Mirrors.effect (h : r.Mirrors settings p rs d) (op : Operation)
    (he : settings.Housed (op.effect p.contents) rs e) :
    Mirrors settings { p with contents := op.effect p.contents } rs
      { r with cache := cacheOf op r.cache } e :=
  ⟨h.settings_eq, h.port_eq, h.store_eq, h.journal_eq, h.room, he, h.cache.effect op, h.pending,
    h.checked⟩

/-- An operation that is carried out at once. -/
theorem Mirrors.apply (h : r.Mirrors settings p rs d) (op : Operation) :
    Answering settings (p.write op) ((r.apply op).bind fun a => .done (.ofResult a.1, a.2)) d := by
  refine Action.Ensures.bind (ensures_apply_cases h.housed h.store_eq op
    (Q := fun a e =>
      .ofResult a.1 = (p.write op).1 ∧ ∃ rs, a.2.Mirrors settings (p.write op).2 rs e)
    ?_ ?_ ?_) fun a e _ hQ => Action.ensures_done.2 ⟨trivial, hQ⟩
  · intro f cache hf hcache
    rw [PlainReplica.write_of_error hf]
    refine ⟨rfl, rs, h.with_cache ?_⟩
    rcases hcache with rfl | rfl
    · exact h.cache
    · exact h.cache.erase op.key
  · intro hok hgone
    rw [PlainReplica.write_of_ok hok, if_pos hgone]
    exact ⟨rfl, rs, h.with_cache (h.cache.erase op.key)⟩
  · intro e hok hM hafter
    rw [PlainReplica.write_of_ok hok, if_neg hM]
    exact ⟨rfl, rs, h.effect op hafter⟩

/-- A replica votes as the map does. -/
theorem Mirrors.vote (h : r.Mirrors settings p rs d) (op : Operation) :
    Answering settings (p.vote op) (r.vote op) d := by
  have hlen : rs.length < Journal.recordBound := by
    have hroom := h.room
    have hbig : 2 < Journal.recordBound := by decide
    omega
  refine ensures_vote_cases h.housed hlen h.journal_eq op ?_ ?_ ?_
  · intro op' hwaits
    rw [PlainReplica.vote_of_pending (h.pending.symm.trans hwaits)]
    exact ⟨rfl, rs, h⟩
  · intro f hnone hcheck
    rw [PlainReplica.vote_of_error (h.pending.symm.trans hnone) hcheck]
    exact ⟨rfl, rs, h⟩
  · intro e hnone hcheck hafter
    rw [PlainReplica.vote_of_ok (h.pending.symm.trans hnone) hcheck]
    refine ⟨rfl, [.ofVote op], ?_⟩
    refine ⟨h.settings_eq, h.port_eq, h.store_eq, rfl, by simp, hafter, h.cache, rfl, ?_⟩
    intro op' hop'
    obtain rfl := Option.some.inj hop'
    exact hcheck

/-- A replica takes a decision as the map does. -/
theorem Mirrors.decide (h : r.Mirrors settings p rs d) (commit : Bool) :
    Answering settings (p.decide commit) (r.decide commit) d := by
  have hchecked : ∀ op, r.phase.pending? = some op → op.check = .ok () := fun op hwaits =>
    h.checked op (h.pending.symm.trans hwaits)
  have hroom : ∀ op, r.phase.pending? = some op → ∀ record : Record,
      (rs ++ [record]).length ≤ 2 := by
    intro op hwaits record
    have hroom := h.room
    rw [h.pending.symm.trans hwaits] at hroom
    simpa using hroom
  unfold PlainReplica.decide
  rw [← h.pending]
  refine ensures_decide_cases h.housed h.store_eq h.journal_eq hchecked commit ?_ ?_ ?_
  · intro hnone
    rw [hnone]
    exact ⟨rfl, rs, h⟩
  · rintro op e hwaits rfl hlogged
    rw [hwaits]
    refine ⟨rfl, rs ++ [.ofDecision false], ?_⟩
    exact ⟨h.settings_eq, h.port_eq, h.store_eq, by simp, hroom op hwaits _, hlogged, h.cache, rfl,
      by simp⟩
  · rintro op e hwaits rfl hafter
    rw [hwaits]
    refine ⟨rfl, rs ++ [.ofDecision true], ?_⟩
    exact ⟨h.settings_eq, h.port_eq, h.store_eq, by simp, hroom op hwaits _, hafter,
      h.cache.effect op, rfl, by simp⟩

/-- Every request is answered as the plain replica answers it. -/
theorem Mirrors.serve (h : r.Mirrors settings p rs d) (now : String) (q : Request) :
    Answering settings (p.serve settings now q) (r.serve now q) d := by
  have hreport : r.report now =
      .report (infoHeader now ++ addressLine settings.host settings.port) := by
    unfold report
    rw [h.settings_eq, h.port_eq]
  unfold Replica.serve
  rw [h.settings_eq]
  cases hvotes : settings.votes with
  | true =>
    rw [if_pos rfl]
    unfold PlainReplica.serve
    rw [hvotes]
    cases q with
    | get key => exact h.get key
    | put key value => exact h.vote (.put key value)
    | del key => exact h.vote (.del key)
    | commit => exact h.decide true
    | abort => exact h.decide false
    | info =>
      rw [← hreport]
      exact h.answering_done _
    | register host port => exact h.answering_done _
  | false =>
    rw [if_neg (by simp)]
    unfold PlainReplica.serve
    rw [hvotes]
    cases q with
    | get key => exact h.get key
    | put key value => exact h.apply (.put key value)
    | del key => exact h.apply (.del key)
    | info =>
      rw [← hreport]
      exact h.answering_done _
    | commit | abort | register _ _ => exact h.answering_done _

/-- Requests that come one after the other are answered as the map answers them. -/
theorem Mirrors.serveAll (requests : List (String × Request)) (h : r.Mirrors settings p rs d) :
    (r.serveAll requests).Ensures (fun _ => True)
      (fun a e => a.1 = (p.serveAll settings requests).1 ∧
        ∃ rs, a.2.Mirrors settings (p.serveAll settings requests).2 rs e) d := by
  induction requests generalizing r p rs d with
  | nil => exact Action.ensures_done.2 ⟨trivial, rfl, rs, h⟩
  | cons request rest ih =>
    obtain ⟨now, q⟩ := request
    refine Action.Ensures.bind (h.serve now q) ?_
    rintro ⟨answer, r'⟩ e - ⟨rfl, rs', h'⟩
    refine Action.Ensures.bind (ih h') ?_
    rintro ⟨answers, r''⟩ e' - ⟨rfl, h''⟩
    exact Action.ensures_done.2 ⟨trivial, rfl, h''⟩

/-! ## Opening on an empty directory -/

/-- A replica that has just been opened where nothing was mirrors the empty map. -/
theorem mirrors_fresh {c : Cache} (hc : Cache.create settings.cacheSets settings.cacheSlots = .ok c)
    (h : settings.Housed (fun _ => none) [] d) :
    Mirrors settings .fresh [] ⟨settings, settings.port, settings.store, c,
      ⟨settings.journalPath, 0, 0⟩, .ready⟩ d := by
  obtain ⟨hdistinct, hempty⟩ := Cache.create_eq_ok hc
  exact ⟨rfl, rfl, rfl, rfl, by simp [PlainReplica.fresh], h,
    ⟨hdistinct, fun key value hcached => absurd hcached (hempty key value)⟩, rfl,
    by simp [PlainReplica.fresh]⟩

/-- A replica that is opened where nothing is yet mirrors the empty map, whether or not it reads the
journal. -/
theorem ensures_opening (hd : d.Vacant settings.storePath) {c : Cache}
    (hc : Cache.create settings.cacheSets settings.cacheSlots = .ok c) {opening : Attempt Replica}
    (hopening : opening = create settings ∨ opening = openWith settings) :
    opening.Ensures (fun _ => True) (fun r e => ∃ r', r = .ok r' ∧ r'.Mirrors settings .fresh [] e)
      d := by
  have hcreate := (ensures_create (kept_of_vacant hd).stocked
    (show 0 < Journal.recordBound by decide) hc).mono
    (fun _ _ => (trivial : True)) fun a e _ hQ => hQ
  rcases hopening with rfl | rfl
  · exact hcreate.mono (fun _ _ => trivial) fun a e _ hQ => ⟨_, hQ.1, mirrors_fresh hc hQ.2⟩
  refine Ensures.bind_ok hcreate ?_
  intro e _ htidy
  split
  · refine ensures_lift_bind (Q := fun a e => ∃ r', a = (.ok (), r') ∧
      r'.Mirrors settings .fresh [] e) ?_ ?_
    · exact (answers_replay_end rfl .ready 0).ensures trivial ⟨_, rfl, mirrors_fresh hc htidy⟩
    · rintro - e - ⟨r', rfl, hr'⟩
      exact (answers_pure r' e).ensures trivial ⟨r', rfl, hr'⟩
  · exact (answers_pure _ e).ensures trivial ⟨_, rfl, mirrors_fresh hc htidy⟩

/-- A replica whose directory is empty, or is not there yet, answers all requests as a plain map
with at most one pending operation does, and then stores this map and waits for the decision on this
operation. -/
theorem answers_as_plain (hsets : 0 < settings.cacheSets) (hslots : 2 ≤ settings.cacheSlots)
    (hd : d.Vacant settings.storePath) {opening : Attempt Replica}
    (hopening : opening = create settings ∨ opening = openWith settings)
    (requests : List (String × Request)) :
    ∃ r d₀ answers r' e, opening.run.run d = (.ok r, d₀) ∧
      (r.serveAll requests).run d₀ = ((answers, r'), e) ∧
      answers = (PlainReplica.fresh.serveAll settings requests).1 ∧
      settings.stored e = (PlainReplica.fresh.serveAll settings requests).2.contents ∧
      r'.phase.pending? = (PlainReplica.fresh.serveAll settings requests).2.pending? := by
  obtain ⟨c, hc⟩ := Cache.exists_create hsets hslots
  obtain ⟨-, r, hopen, hmirrors⟩ := ensures_opening hd hc hopening
  obtain ⟨-, hanswers, rs, h⟩ := hmirrors.serveAll requests
  exact ⟨r, _, _, _, _, Prod.ext hopen rfl, rfl, hanswers, Store.value?_eq h.housed.store,
    h.pending⟩

/-- The pending operation is not seen before it is decided on, and afterwards reads the same whether
or not the key is cached. -/
theorem answers_as_plain_of_put :
    ∃ r d₀ r' e, (openWith (.ofDataDir "data")).run.run Disk.empty = (.ok r, d₀) ∧
      (r.serveAll
        [("", .put "k" "v"), ("", .get "k"), ("", .del "k"), ("", .commit), ("", .get "k"),
        ("", .commit)]).run d₀ =
        (([.voteCommit, .ofFault .noSuchKey, .ofFault .invalidRequest, .ack, .value "k" "v", .ack],
          r'), e) := by
  obtain ⟨r, d₀, answers, r', e, hopen, hrun, hanswers, -⟩ :=
    answers_as_plain (show 0 < (ReplicaSettings.ofDataDir "data").cacheSets by decide) (by decide)
      (vacant_empty _) (.inr rfl)
        [("", .put "k" "v"), ("", .get "k"), ("", .del "k"), ("", .commit), ("", .get "k"),
        ("", .commit)]
  refine ⟨r, d₀, r', e, hopen, ?_⟩
  rw [hrun, hanswers]
  rfl

end Replica

end RingStore
