import RingStore.Proofs.Coordinator.Traffic

/-!
# No stale values

Once a write has returned with success, reads see what it wrote: until a later write of the same key
begins to tell its decision, the cache has the value of the last write or none, and a read that
starts and ends in the meantime answers with this value or finds none (`serves_last_written`). A
read that asked its members before they carried the write out may still come to its end later. It
had noted the epoch before the write was settled, though, and so caches nothing.
-/

namespace RingStore

namespace Coordinator

namespace Traffic

variable {c : Coordinator} {key : String} {v? : Option String} {op : Operation} {first : UInt64}
  {n : Nat} {s s' : Traffic} {stage : Reading} {moved : Option Task} {t : Task} {i : Nat}
  {met : Contact} {q : Request} {M M' : Store.Contents}

/-! ## Reads that are right, and reads that are late -/

/-- An answer to reading a key that has a value, or none. -/
def Right (key : String) (v? : Option String) (r : Response) : Prop :=
  r = .ofFault .noSuchKey ∨ ∃ value, v? = some value ∧ r = .value key value

/-- If a reading has found anything, it is right. -/
def ReadRight (key : String) (v? : Option String) : Reading → Prop
  | .filling _ k value => k = key ∧ v? = some value
  | .finished r => Right key v? r
  | _ => True

/-- The reading has found a value, and noted the epoch when fewer than `n` writes had been carried
out. -/
def ReadLate (first : UInt64) (n : Nat) (stage : Reading) : Prop :=
  ∃ epoch k value, stage = .filling epoch k value ∧ ∃ j < n, epoch = first + .ofNat j

/-- The reading is right, or is over, or will cache nothing. -/
def ReadHarmless (first : UInt64) (n : Nat) (key : String) (v? : Option String) (stage : Reading) :
    Prop :=
  ReadRight key v? stage ∨ (∃ r, stage = .finished r) ∨ ReadLate first n stage

/-- A write of the key was carried out, and no later one has begun to be: its members hold the
value, the cache has no other one, and no reading will cache another one. -/
structure Settled (first : UInt64) (key : String) (v? : Option String) (n : Nat) (s : Traffic) :
    Prop where
  check : checkKey key = .ok ()
  full : s.coordinator.ring.isFull = true
  held : ∀ m ∈ s.coordinator.cohort key, s.held m key = v?
  cached : ∀ value, s.coordinator.cache.Caches key value → v? = some value
  quiet : ∀ (i : Nat) (op : Operation), s.tasks[i]? = some (.write op .settling) → op.key ≠ key
  le : n ≤ s.settled
  reads : ∀ (i : Nat) (stage : Reading), s.tasks[i]? = some (.read key stage) →
    ReadHarmless first n key v? stage

theorem ReadRight.advance (h : ReadRight key v? stage) (hcheck : checkKey key = .ok ())
    (hfull : c.ring.isFull = true)
    (hcached : ∀ value, c.cache.Caches key value → v? = some value) :
    ReadRight key v? (stage.advance c key).2 := by
  cases stage with
  | lookup =>
    simp only [Reading.advance, hcheck]
    split
    · rename_i value cache heq
      have hvalue : (c.cache.get key).1 = some value := by rw [heq]
      exact .inr ⟨value, hcached value (Cache.caches_of_get hvalue), rfl⟩
    · trivial
  | admission =>
    simp only [Reading.advance, hfull]
    trivial
  | asking epoch left =>
    cases left with
    | nil => exact .inl rfl
    | cons x left => trivial
  | filling epoch k value =>
    obtain ⟨rfl, hvalue⟩ := h
    exact .inr ⟨value, hvalue, rfl⟩
  | noting | routing epoch => trivial
  | finished r => exact h

/-- A member that holds the value answers with it. -/
theorem ReadRight.contacted {m : Member} (hdemand : stage.demand key = .contact m q)
    (hheld : M key = v?) (hmeets : Meets M (.read key stage) met M') :
    ReadRight key v? (stage.contacted met) := by
  obtain ⟨epoch, left, rfl⟩ := demand_eq_contact hdemand
  rcases contacted_asking epoch m left met with ⟨k, value, hmet, heq⟩ | heq
  · rw [heq]
    cases hmeets with
    | read hvalue =>
      obtain ⟨rfl, hM⟩ := hvalue k value hmet
      exact ⟨rfl, hheld ▸ hM⟩
  · rw [heq]
    trivial

/-- A member that is asked for a key holds it. -/
theorem mem_cohort_of_contact {m : Member} (h : ReadSound first n c key stage)
    (hdemand : stage.demand key = .contact m q) : m ∈ c.cohort key := by
  obtain ⟨epoch, left, rfl⟩ := demand_eq_contact hdemand
  exact h.2.2 List.mem_cons_self

theorem ReadHarmless.advance (h : ReadHarmless first n key v? stage)
    (hs : Settled first key v? n s) :
    ReadHarmless first n key v? (stage.advance s.coordinator key).2 := by
  rcases h with hright | ⟨r, rfl⟩ | hlate
  · exact .inl (hright.advance hs.check hs.full hs.cached)
  · exact .inr (.inl ⟨r, rfl⟩)
  · obtain ⟨epoch, k, value, rfl, -⟩ := hlate
    exact .inr (.inl ⟨_, rfl⟩)

/-! ## Steps after a write -/

/-- The task is telling the decision to carry out a write of the key. -/
def Delivers (key : String) (t : Task) : Prop :=
  ∃ op left, t = .write op (.deciding true left) ∧ op.key = key

theorem caches_settle (hc : c.cache.Distinct) {value : String}
    (h : (c.settle op).cache.Caches key value) :
    (key = op.key ∧ op.value? = some value) ∨ (key ≠ op.key ∧ c.cache.Caches key value) := by
  cases op with
  | put k w =>
    rcases Cache.caches_put h with ⟨rfl, rfl⟩ | hold
    · exact .inl ⟨rfl, rfl⟩
    · exact .inr hold
  | del k => exact .inr (Cache.caches_erase hc h)

/-- An epoch from before the last write is not the present one. -/
theorem ne_of_late {j : Nat} (hj : j < n) (hn : n < 18446744073709551616) :
    first + .ofNat j ≠ first + .ofNat n := by
  intro heq
  have hnat := congrArg UInt64.toNat ((UInt64.add_right_inj first).1 heq)
  rw [UInt64.toNat_ofNat', UInt64.toNat_ofNat', Nat.mod_eq_of_lt (by omega),
    Nat.mod_eq_of_lt (by omega)] at hnat
  omega

theorem Settled.cached_advance (h : Settled first key v? n s) (ho : Orderly first s)
    (hfew : s.settled < 18446744073709551616) (ht : s.tasks[i]? = some t) {value : String}
    (hvalue : (t.advance s.coordinator).1.cache.Caches key value) : v? = some value := by
  rcases Task.advance_cache s.coordinator t with heq | ⟨k, heq⟩ | ⟨k', k, w, rfl, heq⟩
    | ⟨op, rfl, heq⟩
  · exact h.cached value (heq ▸ hvalue)
  · exact h.cached value (Cache.caches_get (heq ▸ hvalue))
  · rcases Cache.caches_put (heq ▸ hvalue) with ⟨rfl, rfl⟩ | ⟨-, hold⟩
    · obtain ⟨-, -, rfl⟩ := ho.reads i _ _ ht
      rcases h.reads i _ ht with hright | ⟨r, hr⟩ | ⟨epoch, k', w', heq', j, hj, hlate⟩
      · exact hright.2
      · exact absurd hr (by simp)
      · -- the epoch has changed since
        rw [← (Reading.filling.inj heq').1] at hlate
        have hle := h.le
        exact absurd (hlate.symm.trans ho.epoch) (ne_of_late (by omega) hfew)
    · exact h.cached value hold
  · rcases caches_settle ho.distinct (heq ▸ hvalue) with ⟨hkey, -⟩ | ⟨-, hold⟩
    · exact absurd hkey.symm (h.quiet i op ht)
    · exact h.cached value hold

/-- What the members that hold a key have committed changes only when they are told to. -/
theorem Meets.apply_eq (h : Meets M t met M') (ht : ¬ Delivers key t) : M' key = M key := by
  cases h with
  | carriedOut =>
    rename_i op left
    exact Function.update_of_ne (fun heq => ht ⟨op, left, rfl, heq.symm⟩) ..
  | read _ | vote | missed _ | dropped => rfl

theorem settled_le_step (hstep : Step s moved s') : s.settled ≤ s'.settled := by
  cases hstep with
  | request now q => exact Nat.le_of_eq (settled_request s now q).symm
  | @advance i t ht hdemand =>
    show s.settled ≤ (s.tasks.set i (t.advance s.coordinator).2.1).countP Task.settled
    rcases Task.advance_epoch s.coordinator t with ⟨-, hsame⟩ | ⟨-, hbefore, hafter⟩
    · exact Nat.le_of_eq (settled_set ht hsame).symm
    · rw [settled_set_succ ht hbefore hafter]
      omega
  | @contact i t m q met M ht hdemand hmeets =>
    exact Nat.le_of_eq (settled_set ht (Task.settled_contacted t met)).symm
  | @probe i t m ht hdemand up =>
    obtain ⟨left, report, rfl⟩ := Task.eq_trying_of_demand hdemand
    have hsame : (Task.probed (.trying (m :: left) report) up).settled = false := rfl
    exact Nat.le_of_eq (settled_set ht hsame).symm

/-- A write comes to be settled when all have acknowledged the decision. -/
theorem eq_deciding_of_advance {stage : Writing} (h : (stage.advance c op).2.1 = .settling) :
    stage = .deciding true [] := by
  cases stage with
  | checking | admission | entering =>
    simp only [Writing.advance] at h
    split at h <;> exact absurd h (by simp)
  | voting asked left unanimous => cases left <;> exact absurd h (by simp [Writing.advance])
  | deciding commit left =>
    cases left with
    | nil =>
      cases commit with
      | true => rfl
      | false => exact absurd h (by simp [Writing.advance])
    | cons x left => cases commit <;> exact absurd h (by simp [Writing.advance])
  | routing | settling | leaving r | finished r => exact absurd h (by simp [Writing.advance])

/-- A write that meets a member goes on voting or deciding. -/
theorem contacted_cases {stage : Writing} {m : Member} (h : stage.demand op = .contact m q)
    (met : Contact) :
    (∃ asked left unanimous, (stage.contacted met).1 = .voting asked left unanimous) ∨
      ∃ commit left, (stage.contacted met).1 = .deciding commit left := by
  rcases Writing.demand_eq_contact h with ⟨asked, left, unanimous, rfl, -⟩ | ⟨commit, left, rfl, -⟩
  · exact .inl ⟨_, _, _, rfl⟩
  · exact .inr ⟨_, _, rfl⟩

/-- A contact leaves a write past the votes and the decision where it is. -/
theorem false_of_contacted {stage stage' : Writing} {m : Member}
    (hdemand : stage.demand op = .contact m q) (heq : stage' = (stage.contacted met).1)
    (hstage : stage' = .settling ∨ ∃ r, stage' = .leaving r ∨ stage' = .finished r) : False := by
  rcases contacted_cases hdemand met with ⟨asked, left, unanimous, h⟩ | ⟨commit, left, h⟩
  · rw [heq, h] at hstage
    simp at hstage
  · rw [heq, h] at hstage
    simp at hstage

theorem Settled.request (h : Settled first key v? n s) (now : String) (q : Request) :
    Settled first key v? n { s with tasks := s.tasks ++ [.ofRequest now q] } := by
  refine ⟨h.check, h.full, h.held, h.cached, ?_, ?_, ?_⟩
  · intro i op hi
    rcases getElem?_concat_cases hi with ⟨-, heq⟩ | hold
    · rcases ofRequest_cases now q with ⟨k, hk⟩ | ⟨op', hop⟩ | ⟨-, hwrite⟩
      · exact absurd (heq.trans hk) (by simp)
      · exact absurd (heq.trans hop) (by simp)
      · exact absurd heq.symm (hwrite op _)
    · exact h.quiet i op hold
  · rw [settled_request]
    exact h.le
  · intro i stage hi
    rcases getElem?_concat_cases hi with ⟨-, heq⟩ | hold
    · rcases ofRequest_cases now q with ⟨k, hk⟩ | ⟨op, hop⟩ | ⟨hread, -⟩
      · rw [hk, Task.read.injEq] at heq
        rw [heq.2]
        exact .inl trivial
      · exact absurd (heq.trans hop) (by simp)
      · exact absurd heq.symm (hread key stage)
    · exact h.reads i stage hold

/-- Nothing but the delivery of a later write unsettles a write. -/
theorem Settled.step (h : Settled first key v? n s) (ho : Orderly first s)
    (hfew : s.settled < 18446744073709551616) (hstep : Step s moved s')
    (hmoved : ∀ t ∈ moved, ¬ Delivers key t) : Settled first key v? n s' := by
  have hle : n ≤ s'.settled := Nat.le_trans h.le (settled_le_step hstep)
  cases hstep with
  | request now q => exact h.request now q
  | @advance i t ht hdemand =>
    have hfixed := Task.advance_fixed s.coordinator t
    refine ⟨h.check, hfixed.isFull h.full, ?_,
      fun value => h.cached_advance ho hfew ht, ?_, hle, ?_⟩
    · rw [hfixed.cohort h.full]
      exact h.held
    · intro j op hj
      rcases getElem?_set_cases hj with ⟨-, heq⟩ | ⟨-, hold⟩
      · obtain ⟨stage, rfl, hstage⟩ := Task.eq_write_of_advance heq.symm
        obtain rfl := eq_deciding_of_advance hstage.symm
        exact fun hkey => hmoved _ rfl ⟨op, [], rfl, hkey⟩
      · exact h.quiet j op hold
    · intro j stage hj
      rcases getElem?_set_cases hj with ⟨-, heq⟩ | ⟨-, hold⟩
      · obtain ⟨stage, rfl, rfl⟩ := Task.eq_read_of_advance heq.symm
        exact (h.reads i stage ht).advance h
      · exact h.reads j stage hold
  | @contact i t m q met M ht hdemand hmeets =>
    refine ⟨h.check, h.full, ?_, h.cached, ?_, hle, ?_⟩
    · intro m' hm'
      show Function.update s.held m M m' key = v?
      by_cases hmm : m' = m
      · subst hmm
        rw [Function.update_self, hmeets.apply_eq (hmoved t rfl)]
        exact h.held m' hm'
      · rw [Function.update_of_ne hmm]
        exact h.held m' hm'
    · intro j op hj
      rcases getElem?_set_cases hj with ⟨-, heq⟩ | ⟨-, hold⟩
      · obtain ⟨stage, rfl, hstage⟩ := Task.eq_write_of_contacted heq.symm
        exact (false_of_contacted hdemand hstage (.inl rfl)).elim
      · exact h.quiet j op hold
    · intro j stage hj
      rcases getElem?_set_cases hj with ⟨-, heq⟩ | ⟨-, hold⟩
      · obtain ⟨stage, rfl, rfl⟩ := Task.eq_read_of_contacted heq.symm
        have hm := mem_cohort_of_contact (ho.reads i key stage ht) hdemand
        exact .inl (ReadRight.contacted hdemand (h.held m hm) hmeets)
      · exact h.reads j stage hold
  | @probe i t m ht hdemand up =>
    obtain ⟨left, report, rfl⟩ := Task.eq_trying_of_demand hdemand
    refine ⟨h.check, h.full, h.held, h.cached, ?_, hle, ?_⟩
    · intro j op hj
      rcases getElem?_set_cases hj with ⟨-, heq⟩ | ⟨-, hold⟩
      · exact absurd heq (by simp [Task.probed])
      · exact h.quiet j op hold
    · intro j stage hj
      rcases getElem?_set_cases hj with ⟨-, heq⟩ | ⟨-, hold⟩
      · exact absurd heq (by simp [Task.probed])
      · exact h.reads j stage hold

/-- Reads that came after the write are right. -/
def LaterRight (key : String) (v? : Option String) (count : Nat) (s : Traffic) : Prop :=
  ∀ (i : Nat) (stage : Reading), count ≤ i → s.tasks[i]? = some (.read key stage) →
    ReadRight key v? stage

theorem LaterRight.step {count : Nat} (h : LaterRight key v? count s)
    (hs : Settled first key v? n s) (ho : Orderly first s) (hstep : Step s moved s') :
    LaterRight key v? count s' := by
  intro j stage hcount hj
  cases hstep with
  | request now q =>
    rcases getElem?_concat_cases hj with ⟨-, heq⟩ | hold
    · rcases ofRequest_cases now q with ⟨k, hk⟩ | ⟨op, hop⟩ | ⟨hread, -⟩
      · rw [hk, Task.read.injEq] at heq
        rw [heq.2]
        trivial
      · exact absurd (heq.trans hop) (by simp)
      · exact absurd heq.symm (hread key stage)
    · exact h j stage hcount hold
  | @advance i t ht hdemand =>
    rcases getElem?_set_cases hj with ⟨rfl, heq⟩ | ⟨-, hold⟩
    · obtain ⟨stage, rfl, rfl⟩ := Task.eq_read_of_advance heq.symm
      exact (h j stage hcount ht).advance hs.check hs.full hs.cached
    · exact h j stage hcount hold
  | @contact i t m q met M ht hdemand hmeets =>
    rcases getElem?_set_cases hj with ⟨rfl, heq⟩ | ⟨-, hold⟩
    · obtain ⟨stage, rfl, rfl⟩ := Task.eq_read_of_contacted heq.symm
      have hm := mem_cohort_of_contact (ho.reads j key stage ht) hdemand
      exact ReadRight.contacted hdemand (hs.held m hm) hmeets
    · exact h j stage hcount hold
  | @probe i t m ht hdemand up =>
    obtain ⟨left, report, rfl⟩ := Task.eq_trying_of_demand hdemand
    rcases getElem?_set_cases hj with ⟨-, heq⟩ | ⟨-, hold⟩
    · exact absurd heq (by simp [Task.probed])
    · exact h j stage hcount hold

/-! ## From carrying out to returning -/

/-- A write that is about to return with success is settled. -/
def Accomplished (first : UInt64) (s : Traffic) : Prop :=
  ∀ (i : Nat) (op : Operation), s.tasks[i]? = some (.write op (.leaving .success)) →
    ∃ n, Settled first op.key op.value? n s

theorem checkKey_of_check (h : op.check = .ok ()) : checkKey op.key = .ok () := by
  cases op with
  | put key value => exact checkKey_eq_ok.2 (checkPair_eq_ok.1 h).1
  | del key => exact h

/-- All members have carried the write out when it comes to be settled, and all values that were
read before are late. -/
theorem settled_of_settling (ho : Orderly first s)
    (ht : s.tasks[i]? = some (.write op .settling)) :
    Settled first op.key op.value? (s.settled + 1)
      { s with
        coordinator := s.coordinator.settle op
        tasks := s.tasks.set i (.write op (.leaving .success)) } := by
  obtain ⟨hadmitted, hdelivered⟩ := ho.writes i op _ ht
  refine ⟨checkKey_of_check hadmitted.check, hadmitted.full,
    fun m hm => hdelivered m hm (by simp), ?_, ?_, ?_, ?_⟩
  · intro value hvalue
    rcases caches_settle ho.distinct hvalue with ⟨-, hvalue⟩ | ⟨hne, -⟩
    · exact hvalue
    · exact absurd rfl hne
  · intro j op' hj
    rcases getElem?_set_cases hj with ⟨-, heq⟩ | ⟨hne, hold⟩
    · exact absurd heq (by simp)
    · exact absurd (ho.alone j i _ _ hold ht rfl rfl) hne
  · exact Nat.le_of_eq (settled_set_succ ht rfl (by simp [Task.settled])).symm
  · intro j stage hj
    rcases getElem?_set_cases hj with ⟨-, heq⟩ | ⟨-, hold⟩
    · exact absurd heq (by simp)
    · have hsound := ho.reads j op.key stage hold
      cases stage with
      | lookup | admission | noting | routing epoch | asking epoch left => exact .inl trivial
      | finished r => exact .inr (.inl ⟨r, rfl⟩)
      | filling epoch k value =>
        obtain ⟨-, ⟨n, hn, heq⟩, -⟩ := hsound
        exact .inr (.inr ⟨epoch, k, value, rfl, n, by omega, heq⟩)

theorem eq_settling_of_advance {stage : Writing} (h : (stage.advance c op).2.1 = .leaving .success)
    (hdemand : stage.demand op = .step) : stage = .settling := by
  cases stage with
  | checking | admission | entering =>
    simp only [Writing.advance] at h
    split at h <;> exact absurd h (by simp)
  | voting asked left unanimous => cases left <;> exact absurd h (by simp [Writing.advance])
  | deciding commit left =>
    cases left with
    | nil =>
      cases commit with
      | true => exact absurd h (by simp [Writing.advance])
      | false =>
        have hfault := Task.settled_leaving op .generic
        rw [Writing.leaving.inj h] at hfault
        exact absurd hfault (by simp [Task.settled])
    | cons x left => cases commit <;> exact absurd h (by simp [Writing.advance])
  | settling => rfl
  | routing | leaving r | finished r => exact absurd h (by simp [Writing.advance])

/-- While a write is about to return, no other one delivers a decision. -/
theorem Orderly.not_delivers (ho : Orderly first s) {j : Nat}
    (hj : s.tasks[j]? = some (.write op (.leaving .success))) (hne : j ≠ i)
    (ht : s.tasks[i]? = some t) : ¬ Delivers key t := by
  rintro ⟨op', left, rfl, -⟩
  exact hne (ho.alone j i _ _ hj ht rfl rfl)

theorem Accomplished.step (h : Accomplished first s) (ho : Orderly first s)
    (hfew : s.settled < 18446744073709551616) (hstep : Step s moved s') :
    Accomplished first s' := by
  intro j op hj
  have hkeep : s.tasks[j]? = some (.write op (.leaving .success)) →
      (∀ t ∈ moved, ¬ Delivers op.key t) → ∃ n, Settled first op.key op.value? n s' := by
    intro hold hmoved
    obtain ⟨n, hsettled⟩ := h j op hold
    exact ⟨n, hsettled.step ho hfew hstep hmoved⟩
  cases hstep with
  | request now q =>
    rcases getElem?_concat_cases hj with ⟨-, heq⟩ | hold
    · rcases ofRequest_cases now q with ⟨k, hk⟩ | ⟨op', hop⟩ | ⟨-, hwrite⟩
      · exact absurd (heq.trans hk) (by simp)
      · exact absurd (heq.trans hop) (by simp)
      · exact absurd heq.symm (hwrite op _)
    · exact hkeep hold (by simp)
  | @advance i t ht hdemand =>
    rcases getElem?_set_cases hj with ⟨rfl, heq⟩ | ⟨hne, hold⟩
    · obtain ⟨stage, rfl, hstage⟩ := Task.eq_write_of_advance heq.symm
      obtain rfl := eq_settling_of_advance hstage.symm hdemand
      exact ⟨_, settled_of_settling ho ht⟩
    · refine hkeep hold fun t' ht' => ?_
      obtain rfl := Option.some.inj ht'
      exact ho.not_delivers hold hne ht
  | @contact i t m q met M ht hdemand hmeets =>
    rcases getElem?_set_cases hj with ⟨-, heq⟩ | ⟨hne, hold⟩
    · obtain ⟨stage, rfl, hstage⟩ := Task.eq_write_of_contacted heq.symm
      exact (false_of_contacted hdemand hstage (.inr ⟨_, .inl rfl⟩)).elim
    · refine hkeep hold fun t' ht' => ?_
      obtain rfl := Option.some.inj ht'
      exact ho.not_delivers hold hne ht
  | @probe i t m ht hdemand up =>
    obtain ⟨left, report, rfl⟩ := Task.eq_trying_of_demand hdemand
    rcases getElem?_set_cases hj with ⟨-, heq⟩ | ⟨-, hold⟩
    · exact absurd heq (by simp [Task.probed])
    · refine hkeep hold fun t' ht' => ?_
      obtain rfl := Option.some.inj ht'
      rintro ⟨op', left', heq, -⟩
      exact absurd heq (by simp)

theorem run_accomplished (ho : Orderly first s) (h : Accomplished first s) (hrun : Run s s')
    (hfew : s'.settled < 18446744073709551616) : Accomplished first s' := by
  induction hrun with
  | refl => exact h
  | @tail a b hrun hstep ih =>
    obtain ⟨moved, hstep⟩ := hstep
    have hle := settled_le_step hstep
    exact (ih (by omega)).step (ho.run hrun) (by omega) hstep

theorem eq_leaving_of_advance {stage : Writing} (h : (stage.advance c op).2.1 = .finished .success)
    (hdemand : stage.demand op = .step) : stage = .leaving .success := by
  have hfault : ∀ f, Writing.finished (.ofFault f) ≠ .finished .success := by
    intro f heq
    have hne := Task.ofFault_ne_success f
    rw [Writing.finished.inj heq] at hne
    exact absurd hne (by simp)
  cases stage with
  | checking | admission | entering =>
    simp only [Writing.advance] at h
    split at h <;> first | exact absurd h (hfault _) | exact absurd h (by simp)
  | voting asked left unanimous => cases left <;> exact absurd h (by simp [Writing.advance])
  | deciding commit left =>
    cases left <;> cases commit <;> exact absurd h (by simp [Writing.advance])
  | leaving r =>
    obtain rfl := Writing.finished.inj h
    rfl
  | finished r => exact absurd hdemand (by simp [Writing.demand])
  | routing | settling => exact absurd h (by simp [Writing.advance])

/-- A write that returns with success was about to. -/
theorem eq_leaving_of_return (hstep : Step s moved s')
    (hbefore : s.tasks[i]? ≠ some (.write op (.finished .success)))
    (hafter : s'.tasks[i]? = some (.write op (.finished .success))) :
    s.tasks[i]? = some (.write op (.leaving .success)) ∧
      moved = some (.write op (.leaving .success)) := by
  cases hstep with
  | request now q =>
    rcases getElem?_concat_cases hafter with ⟨-, heq⟩ | hold
    · rcases ofRequest_cases now q with ⟨k, hk⟩ | ⟨op', hop⟩ | ⟨-, hwrite⟩
      · exact absurd (heq.trans hk) (by simp)
      · exact absurd (heq.trans hop) (by simp)
      · exact absurd heq.symm (hwrite op _)
    · exact absurd hold hbefore
  | @advance j t ht hdemand =>
    rcases getElem?_set_cases hafter with ⟨rfl, heq⟩ | ⟨-, hold⟩
    · obtain ⟨stage, rfl, hstage⟩ := Task.eq_write_of_advance heq.symm
      obtain rfl := eq_leaving_of_advance hstage.symm hdemand
      exact ⟨ht, rfl⟩
    · exact absurd hold hbefore
  | @contact j t m q met M ht hdemand hmeets =>
    rcases getElem?_set_cases hafter with ⟨-, heq⟩ | ⟨-, hold⟩
    · obtain ⟨stage, rfl, hstage⟩ := Task.eq_write_of_contacted heq.symm
      exact (false_of_contacted hdemand hstage (.inr ⟨_, .inr rfl⟩)).elim
    · exact absurd hold hbefore
  | @probe j t m ht hdemand up =>
    obtain ⟨left, report, rfl⟩ := Task.eq_trying_of_demand hdemand
    rcases getElem?_set_cases hafter with ⟨-, heq⟩ | ⟨-, hold⟩
    · exact absurd heq (by simp [Task.probed])
    · exact absurd hold hbefore

/-! ## What is read after a write -/

/-- Steps none of which delivers a write of the key. -/
def Undelivered (key : String) : Traffic → Traffic → Prop :=
  Relation.ReflTransGen fun s s' => ∃ moved, Step s moved s' ∧ ∀ t ∈ moved, ¬ Delivers key t

theorem settled_le_undelivered (h : Undelivered key s s') : s.settled ≤ s'.settled := by
  induction h with
  | refl => exact Nat.le_refl _
  | tail _ hstep ih =>
    obtain ⟨moved, hstep, -⟩ := hstep
    exact Nat.le_trans ih (settled_le_step hstep)

theorem Settled.undelivered {count : Nat} (h : Settled first key v? n s) (ho : Orderly first s)
    (hlater : LaterRight key v? count s) (hperiod : Undelivered key s s')
    (hfew : s'.settled < 18446744073709551616) :
    Settled first key v? n s' ∧ Orderly first s' ∧ LaterRight key v? count s' := by
  induction hperiod with
  | refl => exact ⟨h, ho, hlater⟩
  | tail _ hstep ih =>
    obtain ⟨moved, hstep, hmoved⟩ := hstep
    have hle := settled_le_step hstep
    obtain ⟨hsettled, horderly, hright⟩ := ih (by omega)
    exact ⟨hsettled.step horderly (by omega) hstep hmoved, horderly.step hstep,
      hright.step hsettled horderly hstep⟩

/-- From the moment a write has returned with success until a later write of its key begins to tell
its decision, the cache has the value that was written or none, and a read of the key that begins
and ends in the meantime answers with this value or finds none. This holds however requests are
mixed, as long as fewer than 2^64 writes are carried out. -/
theorem serves_last_written {start before after last : Traffic} (htasks : start.tasks = [])
    (hcache : start.coordinator.cache.Distinct) (hrun : Run start before)
    (hstep : Step before moved after)
    (hbefore : before.tasks[i]? ≠ some (.write op (.finished .success)))
    (hafter : after.tasks[i]? = some (.write op (.finished .success)))
    (hperiod : Undelivered op.key after last) (hfew : last.settled < 18446744073709551616) :
    ((last.coordinator.cache.get op.key).1 = none ∨
      (last.coordinator.cache.get op.key).1 = op.value?) ∧
    ∀ (j : Nat) (r : Response), after.tasks.length ≤ j →
      last.tasks[j]? = some (.read op.key (.finished r)) →
      r = .ofFault .noSuchKey ∨ ∃ value, op.value? = some value ∧ r = .value op.key value := by
  have hstart := orderly_of_nil htasks hcache
  have hle := settled_le_step hstep
  have hle' := settled_le_undelivered hperiod
  have hnone : Accomplished start.coordinator.epoch start := by simp [Accomplished, htasks]
  have ho := hstart.run hrun
  obtain ⟨hleaving, rfl⟩ := eq_leaving_of_return hstep hbefore hafter
  obtain ⟨n, hsettled⟩ := run_accomplished hstart hnone hrun (by omega) i op hleaving
  -- returning delivers nothing, so that the write is settled still
  have hreturned : Settled start.coordinator.epoch op.key op.value? n after := by
    refine hsettled.step ho (by omega) hstep fun t ht => ?_
    obtain rfl := Option.some.inj ht
    rintro ⟨op', left, heq, -⟩
    exact absurd heq (by simp)
  have hlater : LaterRight op.key op.value? after.tasks.length after := by
    intro j stage hj hread
    rw [List.getElem?_eq_none hj] at hread
    exact absurd hread (by simp)
  obtain ⟨hlast, -, hright⟩ := hreturned.undelivered (ho.step hstep) hlater hperiod hfew
  refine ⟨?_, fun j r hj hread => hright j _ hj hread⟩
  cases hget : (last.coordinator.cache.get op.key).1 with
  | none => exact .inl rfl
  | some value => exact .inr (hlast.cached value (Cache.caches_of_get hget)).symm

theorem Run.advances {c' : Coordinator} {t' : Task} (h : Run s s') (ht : s'.tasks[i]? = some t)
    (hadvances : Advances (s'.coordinator, t) (c', t')) :
    Run s ⟨c', s'.tasks.set i t', s'.held⟩ := by
  obtain ⟨hlt, heq⟩ := List.getElem?_eq_some_iff.1 ht
  generalize hp : (c', t') = p at hadvances
  induction hadvances generalizing c' t' with
  | refl =>
    obtain ⟨rfl, rfl⟩ := Prod.mk.inj hp
    rwa [← heq, List.set_getElem_self]
  | @tail p p' _ hstep ih =>
    obtain ⟨hdemand, -, rfl⟩ := hstep
    obtain ⟨rfl, rfl⟩ := Prod.mk.inj hp
    have hlast := (ih rfl).tail ⟨_, .advance (i := i) (t := p.2) (by simp [hlt]) hdemand⟩
    rwa [List.set_set] at hlast

theorem Run.contact {m : Member} (h : Run s s') (met : Contact) (ht : s'.tasks[i]? = some t)
    (hdemand : t.demand = .contact m q) (hmeets : Meets (s'.held m) t met M) :
    Run s ⟨s'.coordinator, s'.tasks.set i (t.contacted met).1, Function.update s'.held m M⟩ :=
  h.tail ⟨_, .contact ht hdemand hmeets⟩

theorem Step.of_read (c' : Coordinator) {stage' : Reading}
    (ht : s.tasks[i]? = some (.read key stage)) (hdemand : stage.demand key = .step)
    (hadvance : stage.advance s.coordinator key = (c', stage')) :
    Step s (some (.read key stage)) ⟨c', s.tasks.set i (.read key stage'), s.held⟩ := by
  have hstep := Step.advance ht hdemand
  rwa [Task.advance, hadvance] at hstep

/-- A coordinator with an empty cache and one member, which holds every key. -/
def lone : Coordinator :=
  ⟨.ofCapacity 1 1, ⟨1, [⟨0, "localhost", 4001⟩]⟩, ⟨1, Nat.one_pos, Vector.replicate 1 ⟨2, []⟩⟩,
    false, 0⟩

/-- A read that has found the value from before a write comes to its end after the write and caches
nothing; a read that begins after the write answers with what was written. -/
theorem serves_last_written_of_race :
    ∃ before after last : Traffic, Run ⟨lone, [], fun _ _ => some "1"⟩ before ∧
      (∃ moved, Step before moved after) ∧ Undelivered "k" after last ∧
      before.tasks = [.read "k" (.filling 0 "k" "1"), .write (.put "k" "2") (.leaving .success)] ∧
      last.tasks = [.read "k" (.finished (.value "k" "1")),
        .write (.put "k" "2") (.finished .success), .read "k" (.finished (.value "k" "2"))] ∧
      ((last.coordinator.cache.get "k").1 = none ∨
        (last.coordinator.cache.get "k").1 = some "2") := by
  let x : Member := ⟨0, "localhost", 4001⟩
  let held : Member → Store.Contents := fun _ _ => some "1"
  have hcohort : lone.cohort "k" = [x] := by decide
  have hasking : Run ⟨lone, [], held⟩ ⟨lone, [.read "k" (.asking 0 (lone.cohort "k"))], held⟩ :=
    Run.advances (i := 0) (.single ⟨_, .request "" (.get "k")⟩) rfl
      (advances_asking (by decide) (by decide) (by decide))
  rw [hcohort] at hasking
  have hfilling : Run ⟨lone, [], held⟩ ⟨lone, [.read "k" (.filling 0 "k" "1")], held⟩ := by
    have hrun := hasking.contact (i := 0) (.answered (.value "k" "1")) rfl rfl
      (.read (by simp [held]))
    rwa [Function.update_eq_self] at hrun
  have hvoting : Run ⟨lone, [], held⟩ ⟨{ lone with busy := true }, [.read "k" (.filling 0 "k" "1"),
      .write (.put "k" "2") (.voting (lone.cohort "k") (lone.cohort "k") true)], held⟩ :=
    Run.advances (i := 1) (hfilling.tail ⟨_, .request "" (.put "k" "2")⟩) rfl
      (advances_voting (show (Operation.put "k" "2").check = .ok () by decide) (by decide) rfl)
  rw [hcohort] at hvoting
  have hvoted : Run ⟨lone, [], held⟩ ⟨{ lone with busy := true }, [.read "k" (.filling 0 "k" "1"),
      .write (.put "k" "2") (.voting [x] [] true)], held⟩ := by
    have hrun := hvoting.contact (i := 1) (.answered .voteCommit) rfl rfl .vote
    rwa [Function.update_eq_self] at hrun
  have hdeciding : Run ⟨lone, [], held⟩ ⟨{ lone with busy := true },
      [.read "k" (.filling 0 "k" "1"), .write (.put "k" "2") (.deciding true [x])], held⟩ :=
    hvoted.tail ⟨_, .advance (i := 1) (t := .write (.put "k" "2") (.voting [x] [] true)) rfl rfl⟩
  have hbefore : Run ⟨lone, [], held⟩ ⟨settle { lone with busy := true } (.put "k" "2"),
      [.read "k" (.filling 0 "k" "1"), .write (.put "k" "2") (.leaving .success)],
      Function.update held x ((Operation.put "k" "2").effect (held x))⟩ :=
    Run.advances (i := 1) (hdeciding.contact (i := 1) (.answered .ack) rfl rfl .carriedOut) rfl
      (advances_settled _ _)
  have hstep := Step.advance (i := 1) (t := .write (.put "k" "2") (.leaving .success))
    (s := ⟨settle { lone with busy := true } (.put "k" "2"),
      [.read "k" (.filling 0 "k" "1"), .write (.put "k" "2") (.leaving .success)],
      Function.update held x ((Operation.put "k" "2").effect (held x))⟩) rfl rfl
  let c : Coordinator := { settle { lone with busy := true } (.put "k" "2") with busy := false }
  have hhit : (c.cache.get "k").1 = some "2" :=
    show ((lone.cache.put "k" "2").get "k").1 = some "2" by decide
  have hread : ∀ stage, ∀ t ∈ some (Task.read "k" stage), ¬ Delivers "k" t := by
    rintro stage t ht ⟨op, left, rfl, -⟩
    exact absurd (Option.some.inj ht) (by simp)
  have hperiod : Undelivered "k"
      ⟨c, [.read "k" (.filling 0 "k" "1"), .write (.put "k" "2") (.finished .success)],
        Function.update held x ((Operation.put "k" "2").effect (held x))⟩
      ⟨{ c with cache := (c.cache.get "k").2 }, [.read "k" (.finished (.value "k" "1")),
        .write (.put "k" "2") (.finished .success), .read "k" (.finished (.value "k" "2"))],
        Function.update held x ((Operation.put "k" "2").effect (held x))⟩ := by
    refine .head ⟨_, .of_read (i := 0) c rfl rfl rfl, hread _⟩ ?_
    refine .head ⟨_, .request "" (.get "k"), by simp⟩ ?_
    exact .single ⟨_, .of_read (i := 2) _ rfl rfl (advance_hit (by decide) hhit), hread _⟩
  have hempty : lone.cache.Distinct := (Cache.create_eq_ok (rfl : Cache.create 1 2 = _)).1
  have hlast := (serves_last_written (i := 1) rfl hempty hbefore hstep (by simp)
    rfl hperiod (by decide)).1
  exact ⟨_, _, _, hbefore, ⟨_, hstep⟩, hperiod, rfl, rfl, hlast⟩

end Traffic

end Coordinator

end RingStore
