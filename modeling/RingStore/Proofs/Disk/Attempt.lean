import RingStore.Proofs.Disk.Trail
import Mathlib.Data.List.Induction

/-!
# Attempts that meet no fault

What attempts answer and which disks they pass through where every call does its best: looking and
reading change nothing, and `ensureDirectory` makes what is missing on the way to a directory and
nothing else (`ensures_ensureDirectory`).
-/

namespace RingStore

namespace Disk

variable {d e : Disk} {p q : Path}

/-- No file stands on the way to a path or at its end. -/
def Clear (d : Disk) (p : Path) : Prop := ∀ q, q <+: p → ∀ content, d.at? q ≠ some (.file content)

theorem Clear.above (h : d.Clear p) (hq : q <+: p) : d.Clear q :=
  fun r hr => h r (hr.trans hq)

/-- In a proper disk all on the way to a directory are directories. -/
theorem Proper.at?_above (h : d.Proper) (hp : d.at? p = some .directory) (hq : q <+: p) :
    d.at? q = some .directory := by
  obtain ⟨r, rfl⟩ := hq
  induction r using List.reverseRecOn with
  | nil => simpa using hp
  | append_singleton r name ih =>
    apply ih
    rw [← List.append_assoc] at hp
    have hparent := h _ (by simp) (Option.isSome_iff_exists.2 ⟨_, hp⟩)
    rwa [List.dropLast_concat] at hparent

/-- Nothing stands in the way to a directory. -/
theorem Proper.clear (h : d.Proper) (hp : d.at? p = some .directory) : d.Clear p := by
  intro q hq content hfile
  rw [h.at?_above hp hq] at hfile
  exact absurd hfile (by simp)

/-- Where no file stands on the way, nothing at a path means that nothing was found. -/
theorem absence_eq_notFound (h : ∀ q, q <+: p → q ≠ p → ∀ content, d.at? q ≠ some (.file content)) :
    d.absence p = .notFound := by
  unfold absence
  rw [if_neg]
  simp only [List.any_map, List.any_eq_true, List.mem_range, Function.comp_apply, not_exists,
    not_and]
  intro n hn hfile
  split at hfile
  · rename_i content hnode
    refine h (p.take n) (List.take_prefix n p) (fun heq => ?_) content hnode
    have hlen := congrArg List.length heq
    rw [List.length_take] at hlen
    omega
  · exact absurd hfile (by simp)

/-- Where a file stands on the way, a file was found in the place of a directory. -/
theorem absence_eq_notADirectory {content : Bytes} (hq : q <+: p) (hne : q ≠ p)
    (hfile : d.at? q = some (.file content)) : d.absence p = .notADirectory := by
  have hlt : q.length < p.length :=
    Nat.lt_of_le_of_ne hq.length_le fun heq => hne (hq.eq_of_length heq)
  unfold absence
  rw [if_pos]
  simp only [List.any_map, List.any_eq_true, List.mem_range, Function.comp_apply]
  exact ⟨q.length, hlt, by rw [← List.prefix_iff_eq_take.1 hq, hfile]⟩

/-- What is on the way to a path is on the way to the directory that it is in. -/
theorem prefix_dropLast (hq : q <+: p) (hne : q ≠ p) : q <+: p.dropLast := by
  have hlt : q.length < p.length :=
    Nat.lt_of_le_of_ne hq.length_le fun heq => hne (hq.eq_of_length heq)
  refine List.prefix_of_prefix_length_le hq (List.dropLast_prefix p) ?_
  rw [List.length_dropLast]
  omega

theorem Proper.read_of_none (h : d.Proper) (hdir : d.at? p.dropLast = some .directory)
    (hp : d.at? p = none) : d.read p = .error .notFound := by
  simp only [read, hp]
  congr 1
  apply absence_eq_notFound
  intro q hq hne
  exact h.clear hdir q (prefix_dropLast hq hne)

/-- An empty directory is at the path, or nothing and no file on the way. -/
structure Vacant (d : Disk) (p : Path) : Prop where
  proper : d.Proper
  clear : d.Clear p
  below : ∀ q, p <+: q → q ≠ p → d.at? q = none

theorem Vacant.at?_append (h : d.Vacant p) (name : String) : d.at? (p ++ [name]) = none :=
  h.below _ (List.prefix_append _ _) (by simp)

theorem vacant_empty (p : Path) : empty.Vacant p := by
  have hnone : ∀ q : Path, q ≠ [] → empty.at? q = none := by
    intro q hq
    rw [at?_of_ne_nil hq]
    rfl
  refine ⟨proper_empty, ?_, ?_⟩
  · intro q hq content hfile
    by_cases hnil : q = []
    · subst hnil
      exact absurd hfile (by simp)
    · rw [hnone q hnil] at hfile
      exact absurd hfile (by simp)
  · intro q hpre hne
    apply hnone
    rintro rfl
    exact hne (List.prefix_nil.1 hpre).symm

namespace Attempt

variable {α β : Type} {C : Disk → Prop} {Q : Except Fault α → Disk → Prop}
  {R : Except Fault β → Disk → Prop} {P : Path → Prop}

/-- On this disk the attempt changes nothing and answers `r`. -/
def Answers (x : Attempt α) (d : Disk) (r : Except Fault α) : Prop := Action.Answers x.run d r

/-- On this disk the attempt passes only through disks that satisfy `C`, and ends with an answer and
a disk that satisfy `Q`. -/
def Ensures (x : Attempt α) (C : Disk → Prop) (Q : Except Fault α → Disk → Prop) (d : Disk) :
    Prop :=
  Action.Ensures x.run C Q d

/-- The attempt changes the disk only at paths that satisfy `P`. -/
def Within (P : Path → Prop) (x : Attempt α) : Prop := Action.Within P x.run

theorem answers_pure (a : α) (d : Disk) : Answers (pure a) d (.ok a) := ⟨rfl, rfl⟩

theorem answers_throw (f : Fault) (d : Disk) : Answers (throw f : Attempt α) d (.error f) :=
  ⟨rfl, rfl⟩

theorem answers_lift (r : Except Fault α) (d : Disk) : Answers (liftM r) d r := ⟨rfl, rfl⟩

theorem Answers.bind {x : Attempt α} {f : α → Attempt β} {a : α} {r : Except Fault β}
    (hx : x.Answers d (.ok a)) (hf : (f a).Answers d r) : (x >>= f).Answers d r :=
  Action.Answers.bind hx hf

/-- An attempt that fails is the end of what follows. -/
theorem Answers.bind_error {x : Attempt α} {f : α → Attempt β} {g : Fault}
    (hx : x.Answers d (.error g)) : (x >>= f).Answers d (.error g) :=
  Action.Answers.bind hx (Action.answers_done _ _)

theorem Answers.run_bind {x : Attempt α} {f : α → Attempt β} {a : α} (hx : x.Answers d (.ok a)) :
    (x >>= f).run.run d = (f a).run.run d :=
  Action.Answers.run_bind hx

theorem Answers.ensures {x : Attempt α} {r : Except Fault α} (h : x.Answers d r) (hC : C d)
    (hQ : Q r d) : x.Ensures C Q d :=
  Action.Answers.ensures h hC hQ

theorem Answers.ensures_bind {x : Attempt α} {f : α → Attempt β} {a : α}
    (hx : x.Answers d (.ok a)) (hf : (f a).Ensures C R d) : (x >>= f).Ensures C R d :=
  Action.Answers.ensures_bind hx hf

/-- What an attempt leaves, with its answer or its fault, is where the next goes on from. -/
theorem Ensures.bind {x : Attempt α} {f : α → Attempt β} (hx : x.Ensures C Q d)
    (hok : ∀ a e, C e → Q (.ok a) e → (f a).Ensures C R e)
    (herr : ∀ g e, C e → Q (.error g) e → R (.error g) e) : (x >>= f).Ensures C R d := by
  refine Action.Ensures.bind hx ?_
  rintro (g | a) e hC hQ
  · exact Action.ensures_done.2 ⟨hC, herr g e hC hQ⟩
  · exact hok a e hC hQ

/-- An attempt whose answer is known goes on with this answer. -/
theorem Ensures.bind_ok {x : Attempt α} {f : α → Attempt β} {a : α} {K : Disk → Prop}
    (hx : x.Ensures C (fun r e => r = .ok a ∧ K e) d)
    (hok : ∀ e, C e → K e → (f a).Ensures C R e) : (x >>= f).Ensures C R d := by
  refine hx.bind ?_ ?_
  · rintro b e hC ⟨heq, hK⟩
    obtain rfl := Except.ok.inj heq
    exact hok e hC hK
  · rintro g e - ⟨heq, -⟩
    exact absurd heq (by simp)

/-- An attempt goes on with its answer, or ends with a fault that a condition stands for. -/
theorem Ensures.bind_or {x : Attempt α} {f : α → Attempt β} {a : α} {K : Disk → Prop} {E : Prop}
    (hx : x.Ensures C (fun r e => (r = .ok a ∧ K e) ∨ (∃ g, r = .error g) ∧ E) d)
    (hok : ∀ e, C e → K e → (f a).Ensures C R e) (herr : ∀ g e, C e → E → R (.error g) e) :
    (x >>= f).Ensures C R d := by
  refine hx.bind ?_ ?_
  · rintro b e hC (⟨heq, hK⟩ | ⟨⟨g, heq⟩, -⟩)
    · obtain rfl := Except.ok.inj heq
      exact hok e hC hK
    · cases heq
  · rintro g e hC (⟨heq, -⟩ | ⟨-, hE⟩)
    · cases heq
    · exact herr g e hC hE

theorem Within.bind {x : Attempt α} {f : α → Attempt β} (hx : x.Within P)
    (hf : ∀ a, (f a).Within P) : (x >>= f).Within P := by
  refine Action.Within.bind hx ?_
  rintro (g | a)
  · exact trivial
  · exact hf a

theorem answers_isDirectory (p : Path) (d : Disk) :
    (isDirectory p).Answers d (.ok (d.at? p == some .directory)) := by
  refine ⟨rfl, ?_⟩
  have h : ((d.at? p).map (· == .directory) == some true) = (d.at? p == some .directory) := by
    cases d.at? p with
    | none => rfl
    | some node => cases node <;> rfl
  rw [← h]
  rfl

theorem answers_exists? (p : Path) (d : Disk) : (exists? p).Answers d (.ok (d.at? p).isSome) := by
  refine ⟨rfl, ?_⟩
  have h : ((d.at? p).map (· == Node.directory)).isSome = (d.at? p).isSome := by simp
  rw [← h]
  rfl

theorem answers_count (p : Path) (d : Disk) : (count p).Answers d (.ok (d.names p).length) :=
  ⟨rfl, rfl⟩

theorem answers_list (h : d.at? p = some .directory) : (list p).Answers d (.ok (d.names p)) := by
  refine ⟨rfl, ?_⟩
  have hlist : d.list p = .ok (d.names p) := by simp only [Disk.list, h]
  have hrun : (list p).run.run d = ((d.list p).mapError (fun f => Fault.io (.disk f)), d) := rfl
  rw [hrun, hlist]
  rfl

theorem answers_read {content : Bytes} (h : d.at? p = some (.file content)) :
    (read p).Answers d (.ok content) := by
  refine ⟨rfl, ?_⟩
  have hread : d.read p = .ok content := by simp only [Disk.read, h]
  have hrun : (read p).run.run d = ((d.read p).mapError (fun f => Fault.io (.disk f)), d) := rfl
  rw [hrun, hread]
  rfl

/-- A file that is not there cannot be read. -/
theorem answers_read_none (hd : d.Proper) (hdir : d.at? p.dropLast = some .directory)
    (h : d.at? p = none) : (read p).Answers d (.error (.io (.disk .notFound))) := by
  have hread := hd.read_of_none hdir h
  refine ⟨rfl, ?_⟩
  have hrun : (read p).run.run d = ((d.read p).mapError (fun f => Fault.io (.disk f)), d) := rfl
  rw [hrun, hread]
  rfl

theorem answers_read?_file {content : Bytes} (h : d.at? p = some (.file content)) :
    (read? p).Answers d (.ok (some content)) := by
  have hread : d.read p = .ok content := by simp only [Disk.read, h]
  refine ⟨rfl, ?_⟩
  simp only [read?, ExceptT.run_mk, Action.run, hread]

/-- A file that is not there is looked for, and found missing. -/
theorem answers_read?_none (hd : d.Proper) (hdir : d.at? p.dropLast = some .directory)
    (h : d.at? p = none) : (read? p).Answers d (.ok none) := by
  have hread := hd.read_of_none hdir h
  refine ⟨rfl, ?_⟩
  simp only [read?, ExceptT.run_mk, Action.run, hread]

/-- An action is an attempt that meets no fault, and goes on with its answer. -/
theorem ensures_lift_bind {x : Action α} {f : α → Attempt β} {Q : α → Disk → Prop}
    (hx : x.Ensures C Q d) (hf : ∀ a e, C e → Q a e → (f a).Ensures C R e) :
    ((liftM x : Attempt α) >>= f).Ensures C R d := by
  have hlift : (liftM x : Attempt α).Ensures C (fun r e => ∃ a, r = .ok a ∧ Q a e) d :=
    Action.Ensures.bind hx fun a _ hC hQ => Action.ensures_done.2 ⟨hC, a, rfl, hQ⟩
  refine hlift.bind ?_ ?_
  · rintro b e hC ⟨a, heq, hQ⟩
    obtain rfl := Except.ok.inj heq
    exact hf b e hC hQ
  · rintro g e - ⟨a, heq, -⟩
    exact absurd heq (by simp)

theorem answers_change_error {c : Change} {f : DiskFault} (h : d.apply c = .error f) :
    (change c).Answers d (.error (.io (.disk f))) :=
  Action.answers_change_error h (Action.answers_done _ _)

/-- A change that succeeds. -/
theorem ensures_change {c : Change} {Q : Except Fault Unit → Disk → Prop} (h : d.apply c = .ok e)
    (hC : C d) (hC' : C e) (hQ : Q (.ok ()) e) : (change c).Ensures C Q d :=
  (Action.ensures_change h).2 ⟨hC, Action.ensures_done.2 ⟨hC', hQ⟩⟩

/-! ## Making directories -/

/-- Nothing differs but for directories that are new on the way to a path. -/
def Opened (d : Disk) (p : Path) (e : Disk) : Prop :=
  ∀ q, e.at? q = d.at? q ∨ (q <+: p ∧ d.at? q = none ∧ e.at? q = some .directory)

theorem Opened.refl (d : Disk) (p : Path) : Opened d p d := fun _ => .inl rfl

theorem Opened.mono {r : Path} (h : Opened d p e) (hp : p <+: r) : Opened d r e :=
  fun q => (h q).imp_right fun ⟨hq, hrest⟩ => ⟨hq.trans hp, hrest⟩

/-- A directory made on the way to the path keeps the disk opened. -/
theorem Opened.set (h : Opened d p e) (hp : p ≠ []) (hnode : e.at? p = none) :
    Opened d p (e.set p .directory) := by
  intro q
  rw [at?_set hp]
  by_cases hq : q = p
  · subst hq
    rw [if_pos rfl]
    refine .inr ⟨List.prefix_rfl, ?_, rfl⟩
    rcases h q with hsame | ⟨-, hnone, -⟩
    · rw [← hsame, hnode]
    · exact hnone
  · rw [if_neg hq]
    exact h q

/-- A path that is not on the way keeps what is there. -/
theorem Opened.at?_elsewhere (h : Opened d p e) (hq : ¬ q <+: p) : e.at? q = d.at? q := by
  rcases h q with hsame | ⟨hpre, -⟩
  · exact hsame
  · exact absurd hpre hq

/-- What is in the directory at the path stays. -/
theorem Opened.at?_append (h : Opened d p e) (name : String) :
    e.at? (p ++ [name]) = d.at? (p ++ [name]) := by
  apply h.at?_elsewhere
  intro hpre
  have hlen := hpre.length_le
  rw [List.length_append, List.length_singleton] at hlen
  omega

/-- A change whose fault is an answer. -/
def tryChange (c : Change) : Attempt (Except DiskFault Unit) :=
  ExceptT.mk (.change c fun r => .done (.ok r))

theorem answers_tryChange {c : Change} {f : DiskFault} (h : d.apply c = .error f) :
    (tryChange c).Answers d (.ok (.error f)) := by
  refine ⟨?_, ?_⟩
  · simp only [tryChange, ExceptT.run_mk, Action.trail, h]
  · simp only [tryChange, ExceptT.run_mk, Action.run, h]

theorem ensures_tryChange {c : Change} (h : d.apply c = .ok e) (hC : C d) (hC' : C e) :
    (tryChange c).Ensures C (fun r e' => r = .ok (.ok ()) ∧ e' = e) d :=
  (Action.ensures_change h).2 ⟨hC, Action.ensures_done.2 ⟨hC', rfl, rfl⟩⟩

theorem apply_makeDirectory_notFound (hp : d.at? p = none) (hnone : d.at? p.dropLast = none)
    (hclear : d.Clear p) : d.apply (.makeDirectory p) = .error .notFound := by
  have habsence : d.absence p.dropLast = .notFound :=
    absence_eq_notFound fun q hq _ => hclear q (hq.trans (List.dropLast_prefix p))
  simp only [Disk.apply, hp, add, hnone, habsence]

/-- What follows an attempt to make the directory at a path. -/
def acceptMade (p : Path) (r : Except DiskFault Unit) : Attempt Unit :=
  match r with
  | .ok () => return
  | .error f => do
    if ← isDirectory p then return else throw (.io (.disk f))

theorem makeDirectories_cons (name : String) (above : Path) :
    makeDirectories (name :: above) = (do
      match ← tryChange (.makeDirectory (name :: above).reverse) with
      | .error .notFound => do
        makeDirectories above
        acceptMade (name :: above).reverse (← tryChange (.makeDirectory (name :: above).reverse))
      | r => acceptMade (name :: above).reverse r) := rfl

/-- Directories are made on the way to the path only. -/
theorem within_makeDirectories (above : Path) :
    (makeDirectories above).Within (· <+: above.reverse) := by
  have hmake : ∀ p, (tryChange (.makeDirectory p)).Within (· <+: p) := by
    refine fun p => ⟨?_, fun _ => trivial⟩
    rintro q rfl
    exact List.prefix_rfl
  have haccept : ∀ p r, (acceptMade p r).Within (· <+: p) := by
    rintro p (f | ⟨⟩)
    · refine Within.bind (fun _ => trivial) fun shown => ?_
      cases shown <;> exact trivial
    · exact trivial
  induction above with
  | nil => exact trivial
  | cons name above ih =>
    have hway : above.reverse <+: (name :: above).reverse := by simp
    rw [makeDirectories_cons]
    refine Within.bind (hmake _) fun r => ?_
    split
    · refine Within.bind (Action.Within.mono ih fun q hq => hq.trans hway) fun _ =>
        Within.bind (hmake _) fun r => haccept _ r
    · exact haccept _ _

/-- Opening a directory touches the directories on the way to it only. -/
theorem within_ensureDirectory (p : Path) : (ensureDirectory p).Within (· <+: p) := by
  have hmade := within_makeDirectories p.reverse
  rwa [List.reverse_reverse] at hmade

/-- A directory that can be made is made. -/
theorem ensures_acceptMade {d' : Disk} (hopened : Opened d' p d) (hnode : d.at? p = none)
    (hdir : d.at? p.dropLast = some .directory) {f : Except DiskFault Unit → Attempt Unit}
    (hf : f (.ok ()) = acceptMade p (.ok ())) :
    (tryChange (.makeDirectory p) >>= f).Ensures (Opened d' p)
      (fun r e => r = .ok () ∧ e.at? p = some .directory) d := by
  have hnil := ne_nil_of_none hnode
  have hmade : (d.set p .directory).at? p = some .directory := by rw [at?_set hnil, if_pos rfl]
  refine Ensures.bind_ok (ensures_tryChange (apply_makeDirectory hdir hnode) hopened
    (hopened.set hnil hnode)) ?_
  rintro e hC rfl
  rw [hf]
  exact (answers_pure () _).ensures hC ⟨rfl, hmade⟩

/-- Missing directories are made, if no file stands on the way. -/
theorem ensures_makeDirectories (above : Path) (d : Disk)
    (hclear : d.Clear above.reverse) :
    (makeDirectories above).Ensures (Opened d above.reverse)
      (fun r e => r = .ok () ∧ e.at? above.reverse = some .directory) d := by
  induction above with
  | nil => exact (answers_pure () d).ensures (Opened.refl _ _) ⟨rfl, rfl⟩
  | cons name above ih =>
    rw [makeDirectories_cons]
    set p := (name :: above).reverse with hpdef
    have hparent : p.dropLast = above.reverse := by simp [hpdef]
    have habove : above.reverse <+: p := hparent ▸ List.dropLast_prefix p
    have hisDir : ∀ q, q <+: p → (d.at? q).isSome → d.at? q = some .directory := by
      intro q hq hsome
      obtain ⟨node, hnode⟩ := Option.isSome_iff_exists.1 hsome
      cases node with
      | file content => exact absurd hnode (hclear q hq content)
      | directory => exact hnode
    by_cases hnode : d.at? p = none
    · by_cases hup : d.at? p.dropLast = none
      · refine (answers_tryChange (apply_makeDirectory_notFound hnode hup hclear)).ensures_bind ?_
        refine Ensures.bind_ok (K := fun e => Opened d above.reverse e ∧
          e.at? above.reverse = some .directory) ((ih (hclear.above habove)).mono
            (fun e h => h.mono habove) fun a e hC h => ⟨h.1, hC, h.2⟩) ?_
        rintro e hC ⟨hopened, hdir⟩
        refine ensures_acceptMade hC ?_ (hparent ▸ hdir) rfl
        rw [hopened.at?_elsewhere, hnode]
        intro hpre
        have hlen := hpre.length_le
        rw [hpdef, List.reverse_cons, List.length_append, List.length_singleton] at hlen
        omega
      · have hdir := hisDir _ (List.dropLast_prefix p) (Option.isSome_iff_ne_none.2 hup)
        exact ensures_acceptMade (Opened.refl d p) hnode hdir rfl
    · have hdir := hisDir p List.prefix_rfl (Option.isSome_iff_ne_none.2 hnode)
      have hfault : d.apply (.makeDirectory p) = .error .alreadyExists := by
        simp only [Disk.apply, hdir]
      refine (answers_tryChange hfault).ensures_bind ?_
      refine (answers_isDirectory p d).ensures_bind ?_
      rw [hdir]
      exact (answers_pure () d).ensures (Opened.refl _ _) ⟨rfl, hdir⟩

/-- The directory is there in the end, and nothing else differs but for directories on the way. -/
theorem ensures_ensureDirectory (hclear : d.Clear p) :
    (ensureDirectory p).Ensures (Opened d p)
      (fun r e => r = .ok () ∧ e.at? p = some .directory) d := by
  have h := ensures_makeDirectories p.reverse d
  rw [List.reverse_reverse] at h
  exact h hclear

/-- No directory is made where a file stands, or below one. -/
theorem apply_makeDirectory_blocked (hd : d.Proper) (hblocked : ¬ d.Clear p) :
    d.at? p ≠ some .directory ∧ ∃ f, f ≠ .notFound ∧ d.apply (.makeDirectory p) = .error f := by
  obtain ⟨q, hq, content, hfile⟩ : ∃ q, q <+: p ∧ ∃ content, d.at? q = some (.file content) := by
    simpa [Clear] using hblocked
  have hnot : ∀ r, q <+: r → d.at? r ≠ some .directory := fun r hr hdir =>
    hd.clear hdir q hr content hfile
  refine ⟨hnot p hq, ?_⟩
  cases hnode : d.at? p with
  | some node => exact ⟨.alreadyExists, by simp, by simp only [Disk.apply, hnode]⟩
  | none =>
    have hne : q ≠ p := by
      rintro rfl
      rw [hfile] at hnode
      cases hnode
    have habove := prefix_dropLast hq hne
    cases hparent : d.at? p.dropLast with
    | some node =>
      cases node with
      | directory => exact absurd hparent (hnot _ habove)
      | file content =>
        exact ⟨.notADirectory, by simp, by simp only [Disk.apply, hnode, add, hparent]⟩
    | none =>
      have hne' : q ≠ p.dropLast := by
        rintro rfl
        rw [hfile] at hparent
        cases hparent
      have habsence := absence_eq_notADirectory habove hne' hfile
      exact ⟨.notADirectory, by simp, by simp only [Disk.apply, hnode, add, hparent, habsence]⟩

/-- The directory is not made where a file stands on the way. -/
theorem answers_ensureDirectory_blocked (hd : d.Proper) (hblocked : ¬ d.Clear p) :
    ∃ f, (ensureDirectory p).Answers d (.error f) := by
  obtain ⟨hnot, f, hf, hfault⟩ := apply_makeDirectory_blocked hd hblocked
  have hnil : p ≠ [] := by
    rintro rfl
    exact hnot rfl
  obtain ⟨name, above, hp⟩ := List.exists_cons_of_ne_nil (List.reverse_ne_nil_iff.2 hnil)
  have hback : (name :: above).reverse = p := by rw [← hp, List.reverse_reverse]
  refine ⟨.io (.disk f), ?_⟩
  rw [ensureDirectory, hp, makeDirectories_cons, hback]
  refine (answers_tryChange hfault).bind ?_
  have hshown : (d.at? p == some .directory) = false := by simpa using hnot
  have haccept : (acceptMade p (.error f)).Answers d (.error (.io (.disk f))) := by
    refine (answers_isDirectory p d).bind ?_
    rw [hshown]
    exact answers_throw _ d
  cases f with
  | notFound => exact absurd rfl hf
  | _ => exact haccept

end Attempt

end Disk

end RingStore
