import RingStore.Proofs.Disk.Breaking

/-!
# Drafts that are left

A draft that is left on a disk is no file that anyone reads, and a file is drafted anew when it is
written. An action that `Agrees` on two disks that differ in drafts answers the same on both and
leaves disks that differ in drafts again. A change of paths with no draft on the way does
(`Alike.apply`), and so do writing a file (`agrees_writeEntry`) and making a directory
(`agrees_ensureDirectory`).
-/

namespace RingStore

namespace Disk

open Attempt

variable {d d' e e' : Disk} {p q dir : Path} {node : Node}

/-! ## What is on the way to a path -/

theorem ne_draftPath_of_prefix (hq : q <+: dir) (stem : String) : q ≠ draftPath dir stem := by
  rintro rfl
  have hlen := hq.length_le
  rw [draftPath, List.length_append, List.length_singleton] at hlen
  omega

theorem ne_draftPath_of_prefix_entryPath {stem : String} (hq : q <+: entryPath dir stem)
    (stem' : String) : q ≠ draftPath dir stem' := by
  rcases List.prefix_concat_iff.1 hq with rfl | hway
  · exact entryPath_ne_draftPath
  · exact ne_draftPath_of_prefix hway stem'

/-- What is missing on the way to a path shows on the way. -/
theorem absence_congr (h : ∀ q, q <+: p → e.at? q = d.at? q) : e.absence p = d.absence p := by
  have habove : ((List.range p.length).map fun n => e.at? (p.take n)) =
      (List.range p.length).map fun n => d.at? (p.take n) :=
    List.map_congr_left fun n _ => h _ (List.take_prefix n p)
  unfold absence
  rw [habove]

/-- Reading tells what is at a path and on the way there. -/
theorem read_congr (h : ∀ q, q <+: p → e.at? q = d.at? q) : e.read p = d.read p := by
  unfold read
  rw [h p List.prefix_rfl, absence_congr h]

/-- A node is added to both disks or to neither, if the way to it is the same. -/
theorem add_congr (h : ∀ q, q <+: p → e.at? q = d.at? q) :
    (∃ f, d.add p node = .error f ∧ e.add p node = .error f) ∨
      d.add p node = .ok (d.set p node) ∧ e.add p node = .ok (e.set p node) := by
  have habove : ∀ q, q <+: p.dropLast → e.at? q = d.at? q :=
    fun q hq => h q (hq.trans (List.dropLast_prefix p))
  have hparent := habove _ List.prefix_rfl
  unfold add
  rw [hparent, absence_congr habove]
  cases d.at? p.dropLast with
  | none => exact .inl ⟨_, rfl, rfl⟩
  | some node =>
    cases node with
    | file content => exact .inl ⟨_, rfl, rfl⟩
    | directory => exact .inr ⟨rfl, rfl⟩

/-- A change of files fails on both disks, or is made on both and leaves the same at its paths. -/
def SameOutcome (c : Change) (d e : Disk) : Prop :=
  (∃ f, d.apply c = .error f ∧ e.apply c = .error f) ∨
    ∃ d' e', d.apply c = .ok d' ∧ e.apply c = .ok e' ∧ ∀ q, c.Touches q → e'.at? q = d'.at? q

theorem at?_set_self (d e : Disk) (p : Path) (node : Node) :
    (e.set p node).at? p = (d.set p node).at? p := by
  by_cases hp : p = []
  · rw [hp]
    rfl
  · rw [at?_set hp, at?_set hp, if_pos rfl, if_pos rfl]

/-- Creating a file meets what is on the way to it, and nothing else. -/
theorem sameOutcome_create (h : ∀ q, q <+: p → e.at? q = d.at? q) :
    SameOutcome (.create p) d e := by
  have hset : ∀ q, q = p → (e.set p (.file [])).at? q = (d.set p (.file [])).at? q := by
    rintro q rfl
    exact at?_set_self d e q _
  unfold SameOutcome
  simp only [apply, h p List.prefix_rfl]
  cases d.at? p with
  | none => exact (add_congr h).imp_right fun hadd => ⟨_, _, hadd.1, hadd.2, hset⟩
  | some node =>
    cases node with
    | file content => exact .inr ⟨_, _, rfl, rfl, hset⟩
    | directory => exact .inl ⟨_, rfl, rfl⟩

/-- So does writing it. -/
theorem sameOutcome_write {content : Bytes} (h : ∀ q, q <+: p → e.at? q = d.at? q) :
    SameOutcome (.write p content) d e := by
  have hset : ∀ q, q = p → (e.set p (.file content)).at? q = (d.set p (.file content)).at? q := by
    rintro q rfl
    exact at?_set_self d e q _
  unfold SameOutcome
  simp only [apply, h p List.prefix_rfl, absence_congr h]
  cases d.at? p with
  | none => exact .inl ⟨_, rfl, rfl⟩
  | some node =>
    cases node with
    | file content => exact .inr ⟨_, _, rfl, rfl, hset⟩
    | directory => exact .inl ⟨_, rfl, rfl⟩

theorem sameOutcome_unlink (h : ∀ q, q <+: p → e.at? q = d.at? q) :
    SameOutcome (.unlink p) d e := by
  unfold SameOutcome
  simp only [apply, h p List.prefix_rfl, absence_congr h]
  cases hnode : d.at? p with
  | none => exact .inl ⟨_, rfl, rfl⟩
  | some node =>
    cases node with
    | directory => exact .inl ⟨_, rfl, rfl⟩
    | file content =>
      refine .inr ⟨_, _, rfl, rfl, ?_⟩
      rintro q rfl
      have hnil := ne_nil_of_file hnode
      rw [at?_erase hnil, at?_erase hnil, if_pos rfl, if_pos rfl]

theorem sameOutcome_makeDirectory (h : ∀ q, q <+: p → e.at? q = d.at? q) :
    SameOutcome (.makeDirectory p) d e := by
  unfold SameOutcome
  simp only [apply, h p List.prefix_rfl]
  cases d.at? p with
  | some node => exact .inl ⟨_, rfl, rfl⟩
  | none =>
    refine (add_congr h).imp_right fun hadd => ⟨_, _, hadd.1, hadd.2, ?_⟩
    rintro q rfl
    exact at?_set_self d e q _

/-- A rename meets what is on the ways to both of its paths. -/
theorem sameOutcome_rename {source target : Path} (hs : ∀ q, q <+: source → e.at? q = d.at? q)
    (ht : ∀ q, q <+: target → e.at? q = d.at? q) : SameOutcome (.rename source target) d e := by
  unfold SameOutcome
  simp only [apply, hs source List.prefix_rfl, ht target List.prefix_rfl, absence_congr hs]
  cases hsource : d.at? source with
  | none => exact .inl ⟨_, rfl, rfl⟩
  | some node =>
    cases node with
    | directory =>
      rcases d.at? target with _ | ⟨content⟩ | _ <;> exact .inl ⟨_, rfl, rfl⟩
    | file content =>
      by_cases hdir : d.at? target = some .directory
      · rw [hdir]
        exact .inl ⟨_, rfl, rfl⟩
      have hsource := ne_nil_of_file hsource
      have htarget := ne_nil_of_at?_ne hdir
      have herased : ∀ q, q <+: target → (e.erase source).at? q = (d.erase source).at? q := by
        intro q hq
        rw [at?_erase hsource, at?_erase hsource, ht q hq]
      have hadded : (∃ f, (d.erase source).add target (.file content) = .error f ∧
          (e.erase source).add target (.file content) = .error f) ∨
          ∃ d' e', (d.erase source).add target (.file content) = .ok d' ∧
            (e.erase source).add target (.file content) = .ok e' ∧
            ∀ q, q = source ∨ q = target → e'.at? q = d'.at? q := by
        refine (add_congr herased).imp_right fun hadd => ⟨_, _, hadd.1, hadd.2, fun q hq => ?_⟩
        rw [at?_rename hsource htarget, at?_rename hsource htarget]
        rcases hq with rfl | rfl
        · rw [if_pos rfl, if_pos rfl]
        · rw [if_pos rfl, if_pos rfl]
      rcases hnode : d.at? target with _ | ⟨old⟩ | _
      · exact hadded
      · exact hadded
      · exact absurd hnode hdir

/-- A change goes by what is at its paths and on the way there. -/
theorem sameOutcome {c : Change} (hc : ∀ p, c ≠ .removeTree p)
    (h : ∀ p q, c.Touches p → q <+: p → e.at? q = d.at? q) : SameOutcome c d e := by
  cases c with
  | create p => exact sameOutcome_create (h p · rfl)
  | write p content => exact sameOutcome_write (h p · rfl)
  | rename source target => exact sameOutcome_rename (h source · (.inl rfl)) (h target · (.inr rfl))
  | unlink p => exact sameOutcome_unlink (h p · rfl)
  | makeDirectory p => exact sameOutcome_makeDirectory (h p · rfl)
  | removeTree p => exact absurd rfl (hc p)

namespace Alike

variable {stem : String} {content : Bytes}

/-- A change with no draft at its paths or on the way there is made on both disks or on neither. -/
theorem apply (h : Alike dir d e) {c : Change} (hc : ∀ p, c ≠ .removeTree p)
    (hway : ∀ p q stem, c.Touches p → q <+: p → q ≠ draftPath dir stem) :
    (∃ f, d.apply c = .error f ∧ e.apply c = .error f) ∨
      ∃ d' e', d.apply c = .ok d' ∧ e.apply c = .ok e' ∧ Alike dir d' e' := by
  have hsame : SameOutcome c d e :=
    sameOutcome hc fun p q hp hq => h.same q fun stem => hway p q stem hp hq
  refine hsame.imp_right ?_
  rintro ⟨d', e', hd, he, htouched⟩
  refine ⟨d', e', hd, he, fun q hq => ?_, fun q => ?_⟩
  · by_cases htouch : c.Touches q
    · exact htouched q htouch
    · rw [at?_of_apply hd htouch, at?_of_apply he htouch, h.same q hq]
  · by_cases htouch : c.Touches q
    · rw [htouched q htouch]
    · rw [at?_of_apply hd htouch, at?_of_apply he htouch, h.directory_iff q]

/-- Disks that differ in drafts do so still when the same draft is on both. -/
theorem drafted (h : Alike dir d e) (hd : Drafted d dir stem d') (he : Drafted e dir stem e') :
    Alike dir d' e' where
  same q hq := by rw [hd.2 q (hq stem), he.2 q (hq stem), h.same q hq]
  directory_iff q := by
    by_cases hq : q = draftPath dir stem
    · rw [hq]
      exact iff_of_false he.1 hd.1
    · rw [hd.2 q hq, he.2 q hq, h.directory_iff q]

/-- Disks that differ in drafts do so still when the same file has been written on both. -/
theorem written (h : Alike dir d e) (hd : Written d dir stem content d')
    (he : Written e dir stem content e') : Alike dir d' e' where
  same q hq := by rw [hd q, he q, h.same q hq]
  directory_iff q := by
    rw [hd q, he q]
    split
    · exact Iff.rfl
    · split
      · exact Iff.rfl
      · exact h.directory_iff q

end Alike

/-! ## Actions that go by the same -/

namespace Action

variable {α β : Type}

/-- The action answers the same on two disks, and leaves disks that differ in drafts only. -/
def Agrees (dir : Path) (x : Action α) (d e : Disk) : Prop :=
  (x.run e).1 = (x.run d).1 ∧ Alike dir (x.run d).2 (x.run e).2

theorem agrees_done (h : Alike dir d e) (a : α) : Agrees dir (done a) d e := ⟨rfl, h⟩

/-- Parts that agree make a whole that agrees: the second begins where the first has led. -/
theorem Agrees.bind_run {x : Action α} {f : α → Action β} (hx : x.Agrees dir d e)
    (hf : ∀ d' e', Alike dir d' e' → (f (x.run d).1).Agrees dir d' e') :
    (x.bind f).Agrees dir d e := by
  unfold Agrees
  rw [run_bind, run_bind, hx.1]
  exact hf _ _ hx.2

theorem Agrees.bind {x : Action α} {f : α → Action β} (hx : x.Agrees dir d e)
    (hf : ∀ a d' e', Alike dir d' e' → (f a).Agrees dir d' e') : (x.bind f).Agrees dir d e :=
  hx.bind_run (hf _)

/-- A change off all drafts, on the way too, is made on both disks or on neither. -/
theorem agrees_change (h : Alike dir d e) {c : Change} {next : Except DiskFault Unit → Action α}
    (hc : ∀ p, c ≠ .removeTree p)
    (hway : ∀ p q stem, c.Touches p → q <+: p → q ≠ draftPath dir stem)
    (hnext : ∀ r d' e', Alike dir d' e' → (next r).Agrees dir d' e') :
    (change c next).Agrees dir d e := by
  unfold Agrees
  rw [run, run]
  rcases h.apply hc hway with ⟨f, hd, he⟩ | ⟨d', e', hd, he, halike⟩
  · rw [hd, he]
    exact hnext _ _ _ h
  · rw [hd, he]
    exact hnext _ _ _ halike

/-- Actions that only answer. -/
theorem Answers.agrees {x : Action α} {a : α} (h : Alike dir d e) (hd : x.Answers d a)
    (he : x.Answers e a) : x.Agrees dir d e := by
  unfold Agrees
  rw [hd.2, he.2]
  exact ⟨rfl, h⟩

theorem Answers.agrees_bind {x : Action α} {f : α → Action β} {a : α} (hd : x.Answers d a)
    (he : x.Answers e a) (hf : (f a).Agrees dir d e) : (x.bind f).Agrees dir d e := by
  unfold Agrees
  rw [hd.run_bind, he.run_bind]
  exact hf

/-- Actions whose ends are known. -/
theorem Ensures.agrees {x : Action α} {a : α} {C C' D E : Disk → Prop}
    (hd : x.Ensures C (fun r d' => r = a ∧ D d') d) (he : x.Ensures C' (fun r e' => r = a ∧ E e') e)
    (h : ∀ d' e', D d' → E e' → Alike dir d' e') : x.Agrees dir d e :=
  ⟨he.2.1.trans hd.2.1.symm, h _ _ hd.2.2 he.2.2⟩

end Action

namespace Attempt

variable {α β : Type}

/-- The attempt answers the same on two disks, and leaves disks that differ in drafts only. -/
def Agrees (dir : Path) (x : Attempt α) (d e : Disk) : Prop := Action.Agrees dir x.run d e

theorem agrees_pure (h : Alike dir d e) (a : α) : (pure a : Attempt α).Agrees dir d e :=
  Action.agrees_done h _

theorem agrees_throw (h : Alike dir d e) (f : Fault) : (throw f : Attempt α).Agrees dir d e :=
  Action.agrees_done h _

theorem Agrees.bind {x : Attempt α} {f : α → Attempt β} (hx : x.Agrees dir d e)
    (hf : ∀ a d' e', Alike dir d' e' → (f a).Agrees dir d' e') : (x >>= f).Agrees dir d e := by
  refine Action.Agrees.bind hx ?_
  rintro (g | a) d' e' h
  · exact Action.agrees_done h _
  · exact hf a d' e' h

/-- What only answers leaves both disks to what comes after it. -/
theorem Within.agrees_bind {x : Attempt α} {f : α → Attempt β} (hx : x.Within fun _ => False)
    (h : x.Agrees dir d e) (halike : Alike dir d e) (hf : ∀ a, (f a).Agrees dir d e) :
    (x >>= f).Agrees dir d e := by
  have he := Action.Within.answers hx e
  rw [h.1] at he
  refine Action.Answers.agrees_bind (Action.Within.answers hx d) he ?_
  rcases (x.run.run d).1 with g | a
  · exact Action.agrees_done halike _
  · exact hf a

theorem agrees_isDirectory (h : Alike dir d e) (p : Path) : (isDirectory p).Agrees dir d e := by
  have hshown : (e.at? p == some .directory) = (d.at? p == some .directory) := by
    rw [Bool.eq_iff_iff, beq_iff_eq, beq_iff_eq, h.directory_iff]
  exact (answers_isDirectory p d).agrees h (hshown ▸ answers_isDirectory p e)

/-- A finished file is read the same on both disks. -/
theorem agrees_read? (h : Alike dir d e) (stem : String) :
    (read? (entryPath dir stem)).Agrees dir d e := by
  have hread : e.read (entryPath dir stem) = d.read (entryPath dir stem) :=
    read_congr fun q hq => h.same q fun stem' => ne_draftPath_of_prefix_entryPath hq stem'
  refine ⟨?_, h⟩
  simp only [read?, ExceptT.run_mk, Action.run, hread]

theorem agrees_tryChange (h : Alike dir d e) {c : Change} (hc : ∀ p, c ≠ .removeTree p)
    (hway : ∀ p q stem, c.Touches p → q <+: p → q ≠ draftPath dir stem) :
    (tryChange c).Agrees dir d e :=
  Action.agrees_change h hc hway fun _ _ _ h => Action.agrees_done h _

theorem agrees_change (h : Alike dir d e) {c : Change} (hc : ∀ p, c ≠ .removeTree p)
    (hway : ∀ p q stem, c.Touches p → q <+: p → q ≠ draftPath dir stem) :
    (change c).Agrees dir d e :=
  Action.agrees_change h hc hway fun _ _ _ h => Action.agrees_done h _

/-- A file is written whatever drafts are left. -/
theorem agrees_writeEntry (h : Alike dir d e) (hdir : d.at? dir = some .directory) (stem : String)
    (content : Bytes) : (writeEntry dir stem content).Agrees dir d e := by
  have hdir' := (h.directory_iff dir).2 hdir
  by_cases hdraft : d.at? (draftPath dir stem) = some .directory
  · exact Action.Answers.agrees h (answers_writeEntry_directory content hdraft)
      (answers_writeEntry_directory content ((h.directory_iff _).2 hdraft))
  · have hdraft' := (h.directory_iff _).not.2 hdraft
    by_cases hentry : d.at? (entryPath dir stem) = some .directory
    · exact Action.Ensures.agrees (ensures_writeEntry_directory content hdir hdraft hentry)
        (ensures_writeEntry_directory content hdir' hdraft' ((h.directory_iff _).2 hentry))
        fun d' e' => h.drafted
    · exact Action.Ensures.agrees (ensures_writeEntry content hdir hdraft hentry)
        (ensures_writeEntry content hdir' hdraft' ((h.directory_iff _).not.2 hentry))
        fun d' e' => h.written

/-! ## Making directories -/

/-- Directories above the one of the drafts are made on both disks or on neither. -/
theorem agrees_makeDirectories (above : Path) (h : Alike dir d e) (hway : above.reverse <+: dir) :
    (makeDirectories above).Agrees dir d e := by
  have hmake : ∀ p d e, p <+: dir → Alike dir d e →
      (tryChange (.makeDirectory p)).Agrees dir d e := by
    intro p d e hp h
    refine agrees_tryChange h (by simp) ?_
    rintro q r stem rfl hr
    exact ne_draftPath_of_prefix (hr.trans hp) stem
  have haccept : ∀ p r d e, Alike dir d e → (acceptMade p r).Agrees dir d e := by
    rintro p (f | ⟨⟩) d e h
    · refine (agrees_isDirectory h p).bind fun shown d e h => ?_
      cases shown
      · exact agrees_throw h _
      · exact agrees_pure h _
    · exact agrees_pure h _
  induction above generalizing d e with
  | nil => exact agrees_pure h ()
  | cons name above ih =>
    have habove : above.reverse <+: (name :: above).reverse := by simp
    rw [makeDirectories_cons]
    refine (hmake _ d e hway h).bind fun r d e h => ?_
    split
    · exact (ih h (habove.trans hway)).bind fun _ d e h =>
        (hmake _ d e hway h).bind fun r d e h => haccept _ r d e h
    · exact haccept _ _ d e h

theorem agrees_ensureDirectory (h : Alike dir d e) : (ensureDirectory dir).Agrees dir d e :=
  agrees_makeDirectories dir.reverse h (by simp)

end Attempt

end Disk

end RingStore
