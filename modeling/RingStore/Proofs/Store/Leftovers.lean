import RingStore.Proofs.Disk.Leftovers
import RingStore.Proofs.Store.FiniteMap
import Mathlib.Data.Nat.Find

/-!
# A store among drafts that are left

Drafts that are left in the directory of a store never change what it answers. The directory has
more names then, and so a walk along a chain may go on for longer; but it ends at the first free
slot, and that comes before there are more slots than names (`exists_free`). Hence all calls are
answered on two disks that differ in drafts as if they did not (`agrees_performAll`).
-/

namespace RingStore

open Disk Disk.Attempt

namespace Store

variable {s : Store} {d e : Disk} {key : String} {bucket : Nat}

/-! ## Walks along a chain -/

/-- A slot that is free is not read as a pair. -/
theorem answers_readSlot_free {slot : Nat} (hfree : d.at? (s.slotPath bucket slot) = none) :
    (s.readSlot bucket slot).Answers d (.ok none) ∨
      ∃ f, (s.readSlot bucket slot).Answers d (.error f) := by
  have hread : d.read (s.slotPath bucket slot) = .error (d.absence (s.slotPath bucket slot)) := by
    simp only [Disk.read, hfree]
  have hanswers : (read? (s.slotPath bucket slot)).Answers d (.ok none) ∨
      ∃ f, (read? (s.slotPath bucket slot)).Answers d (.error f) := by
    cases hf : d.absence (s.slotPath bucket slot) with
    | notFound =>
      rw [hf] at hread
      exact .inl ⟨rfl, by simp only [read?, ExceptT.run_mk, Action.run, hread]⟩
    | alreadyExists | notADirectory | isADirectory | nameTooLong | device | other _ =>
      rw [hf] at hread
      exact .inr ⟨_, rfl, by simp only [read?, ExceptT.run_mk, Action.run, hread]; rfl⟩
  rcases hanswers with hnone | ⟨f, hfault⟩
  · exact .inl (hnone.bind (answers_pure none d))
  · exact .inr ⟨f, hfault.bind_error⟩

/-- A walk ends at a free slot, however long it may go on. -/
theorem run_seek_of_free {free slot steps steps' : Nat}
    (hfree : d.at? (s.slotPath bucket free) = none) (hle : slot ≤ free) (hlt : free < slot + steps)
    (hlt' : free < slot + steps') :
    (s.seek key bucket steps slot).run.run d = (s.seek key bucket steps' slot).run.run d := by
  induction steps generalizing slot steps' with
  | zero => omega
  | succ steps ih =>
    obtain ⟨steps', rfl⟩ : ∃ n, steps' = n + 1 := ⟨steps' - 1, by omega⟩
    have hread := Action.Within.answers (s.within_readSlot bucket slot) d
    generalize ((s.readSlot bucket slot).run.run d).1 = r at hread
    rcases r with f | _ | pair
    · exact (Answers.bind_error hread).2.trans (Answers.bind_error hread).2.symm
    · have hend : ∀ n, (s.seek key bucket (n + 1) slot).run.run d = (.ok (slot, none), d) :=
        fun n => Answers.run_bind hread
      rw [hend, hend]
    · have hne : slot ≠ free := by
        rintro rfl
        rcases answers_readSlot_free hfree with hnone | ⟨f, hfault⟩
        · cases congrArg Prod.fst (hread.2.symm.trans hnone.2)
        · cases congrArg Prod.fst (hread.2.symm.trans hfault.2)
      refine (Answers.run_bind hread).trans (Eq.trans ?_ (Answers.run_bind hread).symm)
      by_cases hkey : pair.key = key
      · simp only [hkey, if_true]
      · simp only [hkey, if_false]
        exact ih (by omega) (by omega) (by omega)

/-- Behind as many slots as the directory has names, one is free. -/
theorem exists_free (s : Store) (d : Disk) (bucket first : Nat) :
    ∃ i, first ≤ i ∧ i ≤ first + (d.names s.dir).length ∧ d.at? (s.slotPath bucket i) = none := by
  by_contra hnone
  have htaken :
      ∀ i < (d.names s.dir).length + 1, (d.at? (s.slotPath bucket (first + i))).isSome := by
    intro i hi
    rw [Option.isSome_iff_ne_none]
    exact fun hfree => hnone ⟨first + i, by omega, by omega, hfree⟩
  have hle := le_length_names_of_taken s bucket first htaken
  omega

/-- Behind a slot there is a last one before the first that is free. -/
theorem exists_last (s : Store) (d : Disk) (bucket slot : Nat) :
    ∃ last, slot ≤ last ∧ d.at? (s.slotPath bucket (last + 1)) = none ∧
      ∀ i, slot < i → i ≤ last → (d.at? (s.slotPath bucket i)).isSome := by
  have hexists : ∃ n, d.at? (s.slotPath bucket (slot + 1 + n)) = none := by
    obtain ⟨i, hi, -, hfree⟩ := s.exists_free d bucket (slot + 1)
    exact ⟨i - (slot + 1), by rw [Nat.add_sub_cancel' hi, hfree]⟩
  refine ⟨slot + Nat.find hexists, by omega, ?_, fun i hlt hle => ?_⟩
  · rw [Nat.add_right_comm]
    exact Nat.find_spec hexists
  · rw [Option.isSome_iff_ne_none]
    intro hfree
    refine Nat.find_min hexists (m := i - (slot + 1)) (by omega) ?_
    rw [Nat.add_sub_cancel' hlt, hfree]

/-- The walk to the last slot may go on for as long as it has to. -/
theorem answers_lastFrom_names {slot last : Nat} (hle : slot ≤ last)
    (hfree : d.at? (s.slotPath bucket (last + 1)) = none)
    (htaken : ∀ i, slot < i → i ≤ last → (d.at? (s.slotPath bucket i)).isSome) :
    (s.lastFrom bucket (d.names s.dir).length slot).Answers d (.ok last) := by
  have hlen : last - slot ≤ (d.names s.dir).length :=
    le_length_names_of_taken s bucket (slot + 1) fun i hi => htaken _ (by omega) (by omega)
  exact answers_lastFrom hfree _ slot htaken hle (by omega)

/-! ## Calls -/

section Agrees

variable (h : Alike s.dir d e)

include h

theorem agrees_lift {α : Type} (r : Except Fault α) : (liftM r : Attempt α).Agrees s.dir d e :=
  Action.agrees_done h _

theorem agrees_requireDirectory : s.requireDirectory.Agrees s.dir d e := by
  refine (agrees_isDirectory h s.dir).bind fun shown d e h => ?_
  cases shown
  · exact agrees_throw h _
  · exact agrees_pure h _

theorem agrees_readSlot (bucket slot : Nat) : (s.readSlot bucket slot).Agrees s.dir d e := by
  refine (agrees_read? h _).bind fun content? d e h => ?_
  cases content? with
  | none => exact agrees_pure h _
  | some content => exact Agrees.bind (agrees_lift h _) fun _ d e h => agrees_pure h _

theorem agrees_seek (key : String) (bucket steps slot : Nat) :
    (s.seek key bucket steps slot).Agrees s.dir d e := by
  induction steps generalizing slot d e with
  | zero => exact agrees_pure h _
  | succ steps ih =>
    refine (agrees_readSlot h bucket slot).bind fun pair? d e h => ?_
    cases pair? with
    | none => exact agrees_pure h _
    | some pair =>
      show (if pair.key = key then pure (slot, some pair)
        else s.seek key bucket steps (slot + 1)).Agrees s.dir d e
      split
      · exact agrees_pure h _
      · exact ih h (slot + 1)

/-- The slot of a key is found although the directory has other names. -/
theorem agrees_locate (key : String) : (s.locate key).Agrees s.dir d e := by
  obtain ⟨free, hle, hle', hfree⟩ : ∃ free, free ≤ (d.names s.dir).length ∧
      free ≤ (e.names s.dir).length ∧ d.at? (s.slotPath (s.bucketOf key) free) = none := by
    obtain ⟨i, -, hi, hfree⟩ := s.exists_free d (s.bucketOf key) 0
    obtain ⟨j, -, hj, hfree'⟩ := s.exists_free e (s.bucketOf key) 0
    rw [slotPath, h.at?_entryPath] at hfree'
    rcases Nat.le_total i j with hij | hij
    · exact ⟨i, by omega, by omega, hfree⟩
    · exact ⟨j, by omega, by omega, hfree'⟩
  have hfree' : e.at? (s.slotPath (s.bucketOf key) free) = none := by
    rwa [slotPath, h.at?_entryPath]
  have hrun : (s.locate key).run.run d =
      (s.seek key (s.bucketOf key) (free + 1) 0).run.run d :=
    (answers_count s.dir d).run_bind.trans
      (run_seek_of_free hfree (by omega) (by omega) (by omega))
  have hrun' : (s.locate key).run.run e =
      (s.seek key (s.bucketOf key) (free + 1) 0).run.run e :=
    (answers_count s.dir e).run_bind.trans
      (run_seek_of_free hfree' (by omega) (by omega) (by omega))
  unfold Attempt.Agrees Action.Agrees
  rw [hrun, hrun']
  exact agrees_seek h key _ _ 0

theorem agrees_get (key : String) : (s.get key).Agrees s.dir d e := by
  refine Agrees.bind (agrees_lift h _) fun _ d e h => Agrees.bind (agrees_requireDirectory h)
    fun _ d e h => Agrees.bind (agrees_locate h key) fun found d e h => ?_
  obtain ⟨slot, pair?⟩ := found
  cases pair? with
  | none => exact agrees_throw h _
  | some pair => exact agrees_pure h _

/-- A key is put whatever drafts are left. -/
theorem agrees_put (key value : String) : (s.put key value).Agrees s.dir d e := by
  refine (within_lift _).agrees_bind (agrees_lift h _) h fun _ => ?_
  by_cases hdir : d.at? s.dir = some .directory
  · exact (within_requireDirectory s).agrees_bind (agrees_requireDirectory h) h fun _ =>
      (within_locate s key).agrees_bind (agrees_locate h key) h fun found =>
        agrees_writeEntry h hdir _ _
  · exact Action.Answers.agrees h (answers_requireDirectory_missing hdir).bind_error
      (answers_requireDirectory_missing ((h.directory_iff _).not.2 hdir)).bind_error

/-- The last slot is found although the directory has other names. -/
theorem agrees_last {β : Type} (bucket slot : Nat) (f : Nat → Attempt β)
    (hf : ∀ last, (f last).Agrees s.dir d e) :
    (do let entries ← Attempt.count s.dir
        let last ← s.lastFrom bucket entries slot
        f last : Attempt β).Agrees s.dir d e := by
  obtain ⟨last, hle, hfree, htaken⟩ := s.exists_last d bucket slot
  have hlast := answers_lastFrom_names hle hfree htaken
  have hlast' : (s.lastFrom bucket (e.names s.dir).length slot).Answers e (.ok last) := by
    refine answers_lastFrom_names hle ?_ fun i hlt hi => ?_
    · rw [slotPath, h.at?_entryPath]
      exact hfree
    · rw [slotPath, h.at?_entryPath]
      exact htaken i hlt hi
  unfold Attempt.Agrees Action.Agrees
  rw [(answers_count s.dir d).run_bind, (answers_count s.dir e).run_bind, hlast.run_bind,
    hlast'.run_bind]
  exact hf last

theorem agrees_delete (key : String) : (s.delete key).Agrees s.dir d e := by
  have hway : ∀ stem stem' q, q <+: entryPath s.dir stem → q ≠ draftPath s.dir stem' :=
    fun stem stem' q hq => ne_draftPath_of_prefix_entryPath hq stem'
  refine (within_lift _).agrees_bind (agrees_lift h _) h fun _ =>
    (within_requireDirectory s).agrees_bind (agrees_requireDirectory h) h fun _ =>
      (within_locate s key).agrees_bind (agrees_locate h key) h fun found => ?_
  obtain ⟨slot, pair?⟩ := found
  cases pair? with
  | none => exact agrees_throw h _
  | some pair =>
    refine agrees_last h (s.bucketOf key) slot (fun last =>
      if last = slot then Attempt.change (.unlink (s.slotPath (s.bucketOf key) slot)) else
        Attempt.change (.rename (s.slotPath (s.bucketOf key) last)
          (s.slotPath (s.bucketOf key) slot))) fun last => ?_
    split
    · refine agrees_change h (by simp) ?_
      rintro p q stem rfl hq
      exact hway _ stem q hq
    · refine agrees_change h (by simp) ?_
      rintro p q stem (rfl | rfl) hq
      · exact hway _ stem q hq
      · exact hway _ stem q hq

theorem agrees_openIn (buckets : Nat) : (openIn s.dir buckets).Agrees s.dir d e := by
  unfold openIn
  split
  · exact agrees_throw h _
  · exact (agrees_ensureDirectory h).bind fun _ d e h => agrees_pure h _

/-- A call is answered whatever drafts are left. -/
theorem agrees_perform (call : Call) : (call.perform s).Agrees s.dir d e := by
  cases call with
  | get key => exact Action.Agrees.bind (agrees_get h key) fun _ _ _ h => Action.agrees_done h _
  | put key value =>
    exact Action.Agrees.bind (agrees_put h key value) fun _ _ _ h => Action.agrees_done h _
  | delete key =>
    exact Action.Agrees.bind (agrees_delete h key) fun _ _ _ h => Action.agrees_done h _
  | reopen =>
    refine Action.Agrees.bind (agrees_openIn h s.buckets) fun opened d e h => ?_
    cases opened with
    | ok s => exact Action.agrees_done h _
    | error f => exact Action.agrees_done h _

end Agrees

/-- A store that is opened is the one asked for. -/
theorem ensures_openIn_store (dir : Path) (buckets : Nat) (d : Disk) :
    (openIn dir buckets).Ensures (fun _ => True) (fun r _ => ∀ s, r = .ok s → s = ⟨dir, buckets⟩)
      d := by
  unfold openIn
  split
  · exact (answers_throw _ d).ensures trivial (by simp)
  · refine Ensures.bind (Q := fun _ _ => True) ⟨fun _ _ => trivial, trivial⟩ (fun _ e _ _ => ?_)
      (by simp)
    refine (answers_pure _ e).ensures trivial ?_
    rintro s ⟨⟩
    rfl

/-- A call leaves the store to go on with. -/
theorem ensures_perform_store (s : Store) (call : Call) (d : Disk) :
    (call.perform s).Ensures (fun _ => True) (fun r _ => r.2 = s) d := by
  cases call with
  | get key | put key value | delete key =>
    exact Action.Ensures.bind (Q := fun _ _ => True) ⟨fun _ _ => trivial, trivial⟩ fun _ _ _ _ =>
      Action.ensures_done.2 ⟨trivial, rfl⟩
  | reopen =>
    refine Action.Ensures.bind (ensures_openIn_store s.dir s.buckets d) fun opened e _ hopened => ?_
    cases opened with
    | ok s' => exact Action.ensures_done.2 ⟨trivial, hopened s' rfl⟩
    | error f => exact Action.ensures_done.2 ⟨trivial, rfl⟩

/-- All calls are answered whatever drafts are left. -/
theorem agrees_performAll (calls : List Call) (h : Alike s.dir d e) :
    (Call.performAll s calls).Agrees s.dir d e := by
  induction calls generalizing d e with
  | nil => exact Action.agrees_done h _
  | cons call calls ih =>
    refine Action.Agrees.bind_run (agrees_perform h call) fun d' e' h => ?_
    have hstore := (ensures_perform_store s call d).2
    generalize ((call.perform s).run d).1 = r at hstore ⊢
    obtain ⟨answer, s'⟩ := r
    obtain rfl : s' = s := hstore
    exact Action.Agrees.bind (ih h) fun _ _ _ h => Action.agrees_done h _

end Store

end RingStore
