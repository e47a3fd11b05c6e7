import RingStore.Proofs.Disk.Breaking
import RingStore.Proofs.Store.Contents

/-!
# Failing calls under a store

Reading, putting and deleting a key are over when a call fails. Reading changes nothing. Putting and
deleting a key change nothing but drafts before the one change that puts or deletes it, so that they
do all that they do in one step (`oneStep_put`, `oneStep_delete`).

A look at a path is not supposed to fail, and a store is not safe from it (`ends_delete_blind`). If
the slot behind the one that is emptied seems to be free, nothing comes into its place
(`apply_unlink_slot`). A walk then ends there (`answers_seek_free`), and the keys behind it are lost
(`value?_eq_none_of_free`, `value?_eq_none_of_unlinked`).
-/

namespace RingStore

open Disk Disk.Attempt

namespace Store

variable (s : Store)

/-! ## Calls that fail -/

/-- A store whose directory cannot be looked at is unavailable. -/
theorem stops_requireDirectory : s.requireDirectory.Stops (· = s.dir) := by
  refine ⟨fun _ => ⟨.storageUnavailable, by simp, rfl⟩, fun shown => ?_⟩
  rcases shown with _ | _ | _ <;> exact trivial

theorem stops_readSlot {blind : Path → Prop} (bucket slot : Nat) :
    (s.readSlot bucket slot).Stops blind := by
  refine Stops.bind (stops_read? _) fun content? => ?_
  cases content? with
  | none => exact trivial
  | some content => exact Stops.bind (stops_lift _) fun _ => trivial

/-- A walk along the slots of a bucket is over when one of them cannot be read. -/
theorem stops_seek {blind : Path → Prop} (key : String) (bucket steps slot : Nat) :
    (s.seek key bucket steps slot).Stops blind := by
  induction steps generalizing slot with
  | zero => exact trivial
  | succ steps ih =>
    refine Stops.bind (s.stops_readSlot bucket slot) fun pair? => ?_
    cases pair? with
    | none => exact trivial
    | some pair =>
      show (if pair.key = key then pure (slot, some pair)
        else s.seek key bucket steps (slot + 1)).Stops blind
      split
      · exact trivial
      · exact ih (slot + 1)

theorem stops_locate {blind : Path → Prop} (key : String) : (s.locate key).Stops blind :=
  Stops.bind (stops_count _) fun _ => s.stops_seek ..

/-- To look for the last slot of a chain can be relied on, if looks at files can. -/
theorem stops_lastFrom (bucket steps slot : Nat) :
    (s.lastFrom bucket steps slot).Stops (· = s.dir) := by
  induction steps generalizing slot with
  | zero => exact trivial
  | succ steps ih =>
    have hne : s.slotPath bucket (slot + 1) ≠ s.dir := by simp [slotPath, entryPath]
    refine Stops.bind (stops_exists? hne) fun found => ?_
    cases found with
    | false => exact trivial
    | true => exact ih (slot + 1)

/-- To put a value is over when a call fails. -/
theorem stops_put (key value : String) : (s.put key value).Stops (· = s.dir) :=
  Stops.bind (stops_lift _) fun _ => Stops.bind s.stops_requireDirectory fun _ =>
    Stops.bind (s.stops_locate key) fun _ => stops_writeEntry ..

/-- To delete a key is over when a call fails. -/
theorem stops_delete (key : String) : (s.delete key).Stops (· = s.dir) := by
  refine Stops.bind (stops_lift _) fun _ => Stops.bind s.stops_requireDirectory fun _ =>
    Stops.bind (s.stops_locate key) fun found => ?_
  obtain ⟨slot, pair?⟩ := found
  cases pair? with
  | none => exact trivial
  | some pair =>
    refine Stops.bind (stops_count _) fun entries =>
      Stops.bind (s.stops_lastFrom ..) fun last => ?_
    show (if last = slot then Attempt.change (.unlink (s.slotPath (s.bucketOf key) slot)) else
      Attempt.change (.rename (s.slotPath (s.bucketOf key) last)
        (s.slotPath (s.bucketOf key) slot))).Stops (· = s.dir)
    split
    · exact stops_change (by simp)
    · exact stops_change (by simp)

/-- To read a key is over when a call fails. -/
theorem stops_get (key : String) : (s.get key).Stops (· = s.dir) := by
  refine Stops.bind (stops_lift _) fun _ => Stops.bind s.stops_requireDirectory fun _ =>
    Stops.bind (s.stops_locate key) fun found => ?_
  obtain ⟨slot, pair?⟩ := found
  cases pair? <;> exact trivial

/-- Reading a key changes nothing. -/
theorem within_get {P : Path → Prop} (key : String) : (s.get key).Within P := by
  refine Within.bind (within_lift _) fun _ => Within.bind (within_requireDirectory s) fun _ =>
    Within.bind (within_locate s key) fun found => ?_
  obtain ⟨slot, pair?⟩ := found
  cases pair? <;> exact trivial

/-! ## A slot that cannot be read -/

section Unread

variable {s} {m : Mishaps} {d : Disk} {key value : String} {f : DiskFault}

/-- A key is not located if the first slot of its bucket cannot be read. -/
theorem fares_locate_unread (hf : f ≠ .notFound) :
    Action.Fares m (s.locate key).run d (some (.error (.io (.disk f)))) d := by
  have hread : Action.Fares m (s.readSlot (s.bucketOf key) 0).run d
      (some (.error (.io (.disk f)))) d := Action.Fares.bind (fares_read?_failed hf _) .done
  exact Action.Fares.bind (answers_count _ d).fares (Action.Fares.bind hread .done)

/-- A value cannot be put then. -/
theorem fares_put_unread (hdir : d.at? s.dir = some .directory)
    (hpair : checkPair key value = .ok ()) (hf : f ≠ .notFound) :
    Action.Fares m (s.put key value).run d (some (.error (.io (.disk f)))) d := by
  unfold put
  rw [hpair]
  exact Action.Fares.bind (answers_lift (.ok ()) d).fares
    (Action.Fares.bind (answers_requireDirectory hdir).fares
      (Action.Fares.bind (fares_locate_unread hf) .done))

/-- Nor can the key be read. -/
theorem fares_get_unread (hdir : d.at? s.dir = some .directory) (hkey : checkKey key = .ok ())
    (hf : f ≠ .notFound) :
    Action.Fares m (s.get key).run d (some (.error (.io (.disk f)))) d := by
  unfold get
  rw [hkey]
  exact Action.Fares.bind (answers_lift (.ok ()) d).fares
    (Action.Fares.bind (answers_requireDirectory hdir).fares
      (Action.Fares.bind (fares_locate_unread hf) .done))

end Unread

/-! ## Nothing but drafts -/

/-- A put changes nothing but a draft before the draft takes its place. -/
theorem late_put (key value : String) : (s.put key value).Late :=
  Late.bind (within_lift _) fun _ => Late.bind (within_requireDirectory s) fun _ =>
    Late.bind (within_locate s key) fun _ => late_writeEntry ..

/-- A delete has only one change to make. -/
theorem late_delete (key : String) : (s.delete key).Late := by
  refine Late.bind (within_lift _) fun _ => Late.bind (within_requireDirectory s) fun _ =>
    Late.bind (within_locate s key) fun found => ?_
  obtain ⟨slot, pair?⟩ := found
  cases pair? with
  | none => exact trivial
  | some pair =>
    refine Late.bind (x := Attempt.count s.dir) (fun _ => trivial) fun entries =>
      Late.bind (within_lastFrom ..) fun last => ?_
    show (if last = slot then Attempt.change (.unlink (s.slotPath (s.bucketOf key) slot)) else
      Attempt.change (.rename (s.slotPath (s.bucketOf key) last)
        (s.slotPath (s.bucketOf key) slot))).Late
    split
    · exact late_change _
    · exact late_change _

/-! ## One step -/

theorem filesOnly_put (key value : String) : (s.put key value).FilesOnly :=
  FilesOnly.bind (within_lift _).filesOnly fun _ =>
    FilesOnly.bind (within_requireDirectory s).filesOnly fun _ =>
      FilesOnly.bind (within_locate s key).filesOnly fun _ => filesOnly_writeEntry ..

theorem filesOnly_delete (key : String) : (s.delete key).FilesOnly := by
  refine FilesOnly.bind (within_lift _).filesOnly fun _ =>
    FilesOnly.bind (within_requireDirectory s).filesOnly fun _ =>
      FilesOnly.bind (within_locate s key).filesOnly fun found => ?_
  obtain ⟨slot, pair?⟩ := found
  cases pair? with
  | none => exact trivial
  | some pair =>
    refine FilesOnly.bind (x := Attempt.count s.dir) (fun _ => trivial) fun entries =>
      FilesOnly.bind (within_lastFrom ..).filesOnly fun last => ?_
    show (if last = slot then Attempt.change (.unlink (s.slotPath (s.bucketOf key) slot)) else
      Attempt.change (.rename (s.slotPath (s.bucketOf key) last)
        (s.slotPath (s.bucketOf key) slot))).FilesOnly
    split
    · exact filesOnly_change trivial
    · exact filesOnly_change trivial

/-- A key gets its value in one step. -/
theorem oneStep_put (key value : String) : Action.OneStep s.dir (s.put key value).run :=
  ⟨s.stops_put key value, s.late_put key value, s.within_put key value, s.filesOnly_put key value⟩

/-- A key goes in one step. -/
theorem oneStep_delete (key : String) : Action.OneStep s.dir (s.delete key).run :=
  ⟨s.stops_delete key, s.late_delete key, s.within_delete key, s.filesOnly_delete key⟩

/-! ## A look that fails -/

section Blind

variable {s} {M : Contents} {d : Disk} {key : String} {bucket n i : Nat}
  {slots : Nat → Option StoredPair}

/-- A walk along slots that are taken by other keys ends at the first free one. -/
theorem answers_seek_free (hd : d.Proper) (hdir : d.at? s.dir = some .directory)
    (hshows : s.Shows bucket slots d)
    (hshort : ∀ j pair, slots j = some pair → checkPair pair.key pair.value = .ok ())
    (hbefore : ∀ j < i, ∃ pair, slots j = some pair ∧ pair.key ≠ key) (hfree : slots i = none)
    (steps slot : Nat) (hle : slot ≤ i) (hlt : i < slot + steps) :
    (s.seek key bucket steps slot).Answers d (.ok (i, none)) := by
  induction steps generalizing slot with
  | zero => omega
  | succ steps ih =>
    have hread := (hshows.reads hshort).answers_readSlot hd hdir slot
    by_cases hi : slot = i
    · subst hi
      rw [hfree] at hread
      exact hread.bind (answers_pure _ d)
    · obtain ⟨pair, hpair, hkey⟩ := hbefore slot (by omega)
      rw [hpair] at hread
      refine hread.bind ?_
      simp only [hkey, if_false]
      exact ih (slot + 1) (by omega) (by omega)

/-- A key behind a free slot has no value. -/
theorem value?_eq_none_of_free (hd : d.Proper) (hdir : d.at? s.dir = some .directory)
    (hkey : checkKey key = .ok ()) (hshows : s.Shows (s.bucketOf key) slots d)
    (hshort : ∀ j pair, slots j = some pair → checkPair pair.key pair.value = .ok ())
    (hbefore : ∀ j < i, ∃ pair, slots j = some pair ∧ pair.key ≠ key) (hfree : slots i = none) :
    s.value? d key = none := by
  have hnames : i ≤ (d.names s.dir).length := by
    refine (hshows.reads hshort).le_length_names fun j hj => ?_
    obtain ⟨pair, hpair, -⟩ := hbefore j hj
    rw [hpair]
    rfl
  have hseek := answers_seek_free hd hdir hshows hshort hbefore hfree
    ((d.names s.dir).length + 1) 0 (Nat.zero_le i) (by omega)
  have hlocate : (s.locate key).Answers d (.ok (i, none)) := (answers_count s.dir d).bind hseek
  have hget : (s.get key).Answers d (.error .noSuchKey) := by
    unfold get
    rw [hkey]
    exact (answers_lift (.ok ()) d).bind ((answers_requireDirectory hdir).bind
      (hlocate.bind (answers_throw .noSuchKey d)))
  rw [value?_of_answers hget]
  rfl

/-- A slot that is unlinked is free afterwards, and nothing comes into its place. -/
theorem apply_unlink_slot (hdir : d.at? s.dir = some .directory) (hshows : s.Shows bucket slots d)
    {pair : StoredPair} (hi : slots i = some pair) :
    ∃ e, d.apply (.unlink (s.slotPath bucket i)) = .ok e ∧ e.at? s.dir = some .directory ∧
      s.Shows bucket (Function.update slots i none) e := by
  have hnode := hshows i
  rw [hi] at hnode
  have hgone := at?_erase (d := d) (s.slotPath_ne_nil bucket i)
  have hself : s.dir ≠ s.slotPath bucket i := by simp [slotPath, entryPath]
  refine ⟨_, apply_unlink hnode, by rw [hgone, if_neg hself, hdir], fun j => ?_⟩
  rw [hgone]
  by_cases hj : j = i
  · subst hj
    rw [if_pos rfl, Function.update_self]
    rfl
  · rw [if_neg fun heq => hj (slotPath_inj heq).2, Function.update_of_ne hj, hshows j]

/-- Behind a slot that is emptied without another coming into its place, keys are lost. -/
theorem value?_eq_none_of_unlinked {e : Disk} {next : StoredPair} (h : s.Holds M d)
    (hc : Chain s M bucket slots n) (hnext : slots (i + 1) = some next) (he : e.Proper)
    (hdir : e.at? s.dir = some .directory)
    (hshows : s.Shows bucket (Function.update slots i none) e) : s.value? e next.key = none := by
  have hlt := hc.lt_of_eq_some hnext
  have hshort := h.short_of_chain hc
  obtain rfl : s.bucketOf next.key = bucket := hc.placed _ _ hnext
  refine value?_eq_none_of_free he hdir
    (checkKey_eq_ok.2 (checkPair_eq_ok.1 (hshort _ next hnext)).1) hshows ?_ ?_
    (Function.update_self ..)
  · intro k pair hk
    by_cases hki : k = i
    · rw [hki, Function.update_self] at hk
      exact absurd hk (by simp)
    · rw [Function.update_of_ne hki] at hk
      exact hshort k pair hk
  · intro k hk
    obtain ⟨pair, hpair⟩ := Option.isSome_iff_exists.1 ((hc.taken k).2 (by omega))
    refine ⟨pair, by rw [Function.update_of_ne (by omega), hpair], fun heq => ?_⟩
    have hsame := hc.single k (i + 1) pair next hpair hnext heq
    omega

/-- A key is lost if the look at its slot fails while the key in the slot before is deleted: that
slot is then taken for the last of its chain, and nothing comes into its place. -/
theorem ends_delete_blind {pair next : StoredPair} (h : s.Holds M d)
    (hdir : d.at? s.dir = some .directory) (hkey : checkKey key = .ok ())
    (hc : Chain s M (s.bucketOf key) slots n) (hshows : s.Shows (s.bucketOf key) slots d)
    (hi : slots i = some pair) (hpair : pair.key = key) (hnext : slots (i + 1) = some next) :
    ∃ e, Action.Ends (· = s.slotPath (s.bucketOf key) (i + 1)) (s.delete key).run d (.ok ()) e ∧
      M next.key = some next.value ∧ s.value? e next.key = none := by
  have hlt := hc.lt_of_eq_some hnext
  have hreads := h.reads hc hshows
  have hle := hreads.le_length_names fun i hi => (hc.taken i).2 hi
  obtain ⟨steps, hsteps⟩ : ∃ steps, (d.names s.dir).length = steps + 1 :=
    ⟨(d.names s.dir).length - 1, by omega⟩
  obtain ⟨⟨j, found⟩, hlocate, hfound⟩ := answers_locate h.proper hdir hc hreads
  obtain ⟨rfl, rfl⟩ : j = i ∧ found = some pair := by
    cases found with
    | none => exact absurd hpair (hfound.2 i pair hi)
    | some pair' =>
      obtain rfl := hc.single j i pair' pair hfound.1 hi (hfound.2.trans hpair.symm)
      exact ⟨rfl, hfound.1.symm.trans hi⟩
  obtain ⟨e, hunlink, hdir', hshows'⟩ := apply_unlink_slot hdir hshows hi
  refine ⟨e, ?_, hc.sound _ _ hnext,
    value?_eq_none_of_unlinked h hc hnext (h.proper.apply hunlink) hdir' hshows'⟩
  have hlast : Action.Ends (· = s.slotPath (s.bucketOf key) (j + 1))
      (s.lastFrom (s.bucketOf key) (steps + 1) j).run d (.ok j) d :=
    Action.Fares.bind (.lookFails rfl .done) .done
  unfold delete
  rw [hkey]
  refine Action.Fares.bind (answers_lift (.ok ()) d).fares (Action.Fares.bind
    (answers_requireDirectory hdir).fares (Action.Fares.bind hlocate.fares (Action.Fares.bind
      (answers_count s.dir d).fares (Action.Fares.bind (hsteps ▸ hlast) ?_))))
  show Action.Ends _ (if j = j then Attempt.change (.unlink (s.slotPath (s.bucketOf key) j)) else
    Attempt.change (.rename (s.slotPath (s.bucketOf key) j)
      (s.slotPath (s.bucketOf key) j))).run _ _ _
  rw [if_pos rfl]
  exact .change hunlink .done

end Blind

end Store

end RingStore
