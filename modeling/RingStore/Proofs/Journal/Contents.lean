import RingStore.Proofs.Journal.Names
import RingStore.Proofs.Wire.RoundTrip

/-!
# What the files of a journal hold

A journal's directory is `Kept` if it holds the records from the first number on, without a gap,
and nothing at the number after them: this is all that a crash leaves sure, for clearing removes
the files in the order of their numbers (`ensures_clear`). Opening removes what a clearing on its
way has left behind the gap (`ensures_openIn`), and then nothing at all is at the numbers that
follow: the journal is `Tidy`.
-/

namespace RingStore

open Disk Disk.Attempt

namespace Journal

variable {d e : Disk} {dir : Path} {rs : List Record} {r : Record} {N : String → Prop}

/-! ## Directories that hold records -/

/-- The numbers below `bound` stand for the records in their order, and the rest for nothing. -/
def Holds (dir : Path) (rs : List Record) (bound : Nat) (d : Disk) : Prop :=
  ∀ i < bound, d.at? (recordPath dir i) = rs[i]?.map fun r => .file (Wire.encode r)

/-- The directory, if it is there, holds the records and nothing at the number after them. -/
structure Kept (dir : Path) (rs : List Record) (d : Disk) : Prop where
  proper : d.Proper
  clear : d.Clear dir
  flat : ∀ name, d.at? (dir ++ [name]) ≠ some .directory
  holds : Holds dir rs (rs.length + 1) d

/-- The directory is there, and holds the records and nothing at any number after them. -/
structure Tidy (dir : Path) (rs : List Record) (d : Disk) : Prop where
  proper : d.Proper
  directory : d.at? dir = some .directory
  flat : ∀ name, d.at? (dir ++ [name]) ≠ some .directory
  holds : Holds dir rs recordBound d

/-- The same for a directory that may also hold directories, under names that satisfy `N`. -/
structure KeptAmong (N : String → Prop) (dir : Path) (rs : List Record) (d : Disk) : Prop where
  proper : d.Proper
  clear : d.Clear dir
  directories : ∀ name, d.at? (dir ++ [name]) = some .directory → N name
  holds : Holds dir rs (rs.length + 1) d

/-- The same for a directory that may also hold directories, under names that satisfy `N`. -/
structure TidyAmong (N : String → Prop) (dir : Path) (rs : List Record) (d : Disk) : Prop where
  proper : d.Proper
  directory : d.at? dir = some .directory
  directories : ∀ name, d.at? (dir ++ [name]) = some .directory → N name
  holds : Holds dir rs recordBound d

/-- There are not more records than can be counted, and none is too long to be read back. -/
def Countable (rs : List Record) : Prop :=
  rs.length < recordBound ∧ ∀ r ∈ rs, r.data.length < Nat.pow 256 8

theorem countable_nil : Countable [] := ⟨(show 0 < recordBound by decide), by simp⟩

theorem countable_single {r : Record} (h : r.data.length < Nat.pow 256 8) : Countable [r] :=
  ⟨(show 1 < recordBound by decide), by simpa using h⟩

theorem Countable.concat {r : Record} (h : Countable rs) (hroom : rs.length + 1 < recordBound)
    (hdata : r.data.length < Nat.pow 256 8) : Countable (rs ++ [r]) := by
  refine ⟨by rwa [List.length_append], fun r' hr' => ?_⟩
  rcases List.mem_append.1 hr' with hr' | hr'
  · exact h.2 r' hr'
  · obtain rfl := List.mem_singleton.1 hr'
    exact hdata

theorem kept_iff : Kept dir rs d ↔ KeptAmong (fun _ => False) dir rs d :=
  ⟨fun h => ⟨h.proper, h.clear, h.flat, h.holds⟩,
    fun h => ⟨h.proper, h.clear, h.directories, h.holds⟩⟩

theorem tidy_iff : Tidy dir rs d ↔ TidyAmong (fun _ => False) dir rs d :=
  ⟨fun h => ⟨h.proper, h.directory, h.flat, h.holds⟩,
    fun h => ⟨h.proper, h.directory, h.directories, h.holds⟩⟩

theorem TidyAmong.kept (h : TidyAmong N dir rs d) (hlen : rs.length < recordBound) :
    KeptAmong N dir rs d where
  proper := h.proper
  clear := h.proper.clear h.directory
  directories := h.directories
  holds := fun i hi => h.holds i (by omega)

theorem Tidy.kept (h : Tidy dir rs d) (hlen : rs.length < recordBound) : Kept dir rs d :=
  kept_iff.2 ((tidy_iff.1 h).kept hlen)

theorem Holds.at?_of_lt {bound i : Nat} (h : Holds dir rs bound d) (hb : i < bound)
    (hi : i < rs.length) : d.at? (recordPath dir i) = some (.file (Wire.encode rs[i])) := by
  rw [h i hb, List.getElem?_eq_getElem hi]
  rfl

/-- Behind the last record there is no file. -/
theorem Holds.at?_of_le {bound i : Nat} (h : Holds dir rs bound d) (hb : i < bound)
    (hi : rs.length ≤ i) : d.at? (recordPath dir i) = none := by
  rw [h i hb, List.getElem?_eq_none hi]
  rfl

/-- Nothing is at the first number without a record. -/
theorem Holds.nil (h : d.at? (recordPath dir 0) = none) : Holds dir [] 1 d := by
  intro i hi
  obtain rfl : i = 0 := by omega
  rw [h]
  rfl

/-- The first number without a record is found. -/
theorem answers_extent {n : Nat} (h : ∀ i < n, (d.at? (recordPath dir i)).isSome)
    (hend : d.at? (recordPath dir n) = none) (steps index : Nat) (hle : index ≤ n)
    (hlt : n < index + steps) : (extent dir steps index).Answers d (.ok n) := by
  induction steps generalizing index with
  | zero => omega
  | succ steps ih =>
    refine (answers_exists? _ d).bind ?_
    by_cases hi : index = n
    · subst hi
      rw [hend]
      exact answers_pure index d
    · rw [h index (by omega)]
      exact ih (index + 1) (by omega) (by omega)

/-- Nothing differs but for files that are gone, which hold records from a number on. -/
def Pruned (dir : Path) (first : Nat) (d e : Disk) : Prop :=
  ∀ q, e.at? q = d.at? q ∨
    (e.at? q = none ∧ ∃ name, q = dir ++ [name] ∧ ∃ i, indexOf? name = some i ∧ first ≤ i)

theorem Pruned.refl (dir : Path) (first : Nat) (d : Disk) : Pruned dir first d d :=
  fun _ => .inl rfl

theorem Pruned.trans {first : Nat} {c : Disk} (h : Pruned dir first c d)
    (h' : Pruned dir first d e) : Pruned dir first c e := by
  intro q
  rcases h' q with hq | hq
  · rw [hq]
    exact h q
  · exact .inr hq

/-- No directory is new. -/
theorem Pruned.directory {first : Nat} {q : Path} (h : Pruned dir first d e)
    (hq : e.at? q = some .directory) : d.at? q = some .directory := by
  rcases h q with heq | ⟨heq, -⟩
  · rwa [← heq]
  · rw [heq] at hq
    exact absurd hq (by simp)

theorem Pruned.at?_of_none {first : Nat} {q : Path} (h : Pruned dir first d e)
    (hq : d.at? q = none) : e.at? q = none := by
  rcases h q with heq | ⟨heq, -⟩
  · rwa [heq]
  · exact heq

/-- A path that is not in the directory is not pruned. -/
theorem Pruned.at?_of_dropLast_ne {first : Nat} {q : Path} (h : Pruned dir first d e)
    (hq : q.dropLast ≠ dir) : e.at? q = d.at? q := by
  rcases h q with heq | ⟨-, name, rfl, -⟩
  · exact heq
  · exact absurd List.dropLast_concat hq

theorem Pruned.at?_self {first : Nat} (h : Pruned dir first d e) : e.at? dir = d.at? dir := by
  rcases h dir with heq | ⟨-, name, hname, -⟩
  · exact heq
  · exact absurd hname (by simp)

/-- Records with smaller numbers stay. -/
theorem Pruned.at?_recordPath {first i : Nat} (h : Pruned dir first d e) (hi : i < first)
    (hb : i < recordBound) : e.at? (recordPath dir i) = d.at? (recordPath dir i) := by
  rcases h (recordPath dir i) with heq | ⟨-, name, hname, j, hj, hle⟩
  · exact heq
  · have hname : recordName i = name := List.singleton_inj.1 (List.append_cancel_left hname)
    rw [← hname, indexOf?_recordName hb, Option.some.injEq] at hj
    omega

/-- Removing one of the later records prunes the directory. -/
theorem Pruned.of_discard {first i : Nat} {name : String} (hname : indexOf? name = some i)
    (hle : first ≤ i) (h : ∀ q, e.at? q = if q = dir ++ [name] then none else d.at? q) :
    Pruned dir first d e := by
  intro q
  rw [h]
  split
  · rename_i hq
    exact .inr ⟨rfl, name, hq, i, hname, hle⟩
  · exact .inl rfl

theorem removeNamed_cons (first : Nat) (name : String) (rest : List String) :
    removeNamed dir first (name :: rest) =
      if (indexOf? name).any (first ≤ ·) then
        Attempt.discard (.unlink (dir ++ [name])) >>= fun _ => removeNamed dir first rest
      else removeNamed dir first rest := by
  simp only [removeNamed]

/-- A directory bears a name that stands for a record from a number on. It cannot be removed as a
file is. -/
def Obstructed (dir : Path) (first : Nat) (d : Disk) : Prop :=
  ∃ name i, indexOf? name = some i ∧ first ≤ i ∧ d.at? (dir ++ [name]) = some .directory

theorem Obstructed.of_pruned {first : Nat} (h : Obstructed dir first e)
    (hpruned : Pruned dir first d e) : Obstructed dir first d := by
  obtain ⟨name, i, hname, hle, hnode⟩ := h
  exact ⟨name, i, hname, hle, hpruned.directory hnode⟩

/-- Nothing is at a name now, and before that no directory was. -/
def Gone (dir : Path) (d e : Disk) (name : String) : Prop :=
  d.at? (dir ++ [name]) ≠ some .directory ∧ e.at? (dir ++ [name]) = none

/-- Of the names that are listed, the files of later records go and the others stay. -/
theorem ensures_removeNamed (first : Nat) (names : List String) (hd : d.Proper)
    (hdir : d.at? dir = some .directory) :
    (removeNamed dir first names).Ensures (Pruned dir first d) (fun r e =>
      (r = .ok () ∧ ∀ name ∈ names, ∀ i, indexOf? name = some i → first ≤ i → Gone dir d e name) ∨
      (∃ f, r = .error f) ∧ Obstructed dir first d) d := by
  induction names generalizing d with
  | nil => exact (answers_pure () d).ensures (.refl _ _ _) (.inl ⟨rfl, by simp⟩)
  | cons name rest ih =>
    rw [removeNamed_cons]
    by_cases hname : (indexOf? name).any (first ≤ ·) = true
    · obtain ⟨i, hi, hle⟩ := (Option.any_eq_true _ _).1 hname
      have hle : first ≤ i := of_decide_eq_true hle
      rw [if_pos hname]
      by_cases hnode : d.at? (dir ++ [name]) = some .directory
      · refine (answers_discard_directory hnode).bind_error.ensures (.refl _ _ _)
          (.inr ⟨⟨_, rfl⟩, ?_⟩)
        exact ⟨name, i, hi, hle, hnode⟩
      have hgone := ensures_discard hd (by rwa [List.dropLast_concat]) hnode
      refine Ensures.bind_ok (C := Pruned dir first d) (K := fun e => e.Proper ∧
        ∀ q, e.at? q = if q = dir ++ [name] then none else d.at? q)
        (hgone.mono_proper hd ?_ fun a e he _ hQ => ⟨hQ.1, he, hQ.2⟩) ?_
      · rintro e - (rfl | he)
        · exact .refl _ _ _
        · exact .of_discard hi hle he
      · rintro e hpruned ⟨hproper, hgone⟩
        have hrest := ih hproper (by rw [hpruned.at?_self, hdir])
        refine hrest.mono (fun e' h => hpruned.trans h) fun a e' hC hQ => ?_
        refine hQ.imp (fun hok => ⟨hok.1, ?_⟩) fun herr => ⟨herr.1, herr.2.of_pruned hpruned⟩
        intro other hother j hj hlej
        by_cases hsame : other = name
        · rw [hsame]
          exact ⟨hnode, Pruned.at?_of_none hC (by rw [hgone, if_pos rfl])⟩
        · obtain ⟨hflat, hnone⟩ := hok.2 other (List.mem_of_ne_of_mem hsame hother) j hj hlej
          rw [hgone, if_neg (by simpa using hsame)] at hflat
          exact ⟨hflat, hnone⟩
    · rw [if_neg hname]
      refine (ih hd hdir).mono (fun e h => h) fun a e hC hQ => hQ.imp_left fun hok => ⟨hok.1, ?_⟩
      intro other hother j hj hlej
      rcases List.mem_cons.1 hother with rfl | hother
      · rw [hj] at hname
        exact absurd (by simpa using hlej) hname
      · exact hok.2 other hother j hj hlej

/-- All names that stand for a number from a number on are removed, so that nothing is left there,
unless a directory is in the way. -/
theorem ensures_removeFrom (first : Nat) (hd : d.Proper) (hdir : d.at? dir = some .directory) :
    (removeFrom dir first).Ensures (Pruned dir first d) (fun r e =>
      (r = .ok () ∧ ∀ name i, indexOf? name = some i → first ≤ i → Gone dir d e name) ∨
      (∃ f, r = .error f) ∧ Obstructed dir first d) d := by
  refine (answers_list hdir).ensures_bind ?_
  refine (ensures_removeNamed first (d.names dir) hd hdir).mono (fun e he => he) ?_
  rintro r e hpruned (⟨rfl, hgone⟩ | herr)
  · refine .inl ⟨rfl, fun name i hi hle => ?_⟩
    by_cases hname : name ∈ d.names dir
    · exact hgone _ hname i hi hle
    · rw [mem_names, Bool.not_eq_true, Option.isSome_eq_false_iff,
        Option.isNone_iff_eq_none] at hname
      exact ⟨by simp [hname], hpruned.at?_of_none hname⟩
  · exact .inr herr

/-- Pruning what is behind the records keeps them. -/
theorem KeptAmong.pruned (h : KeptAmong N dir rs d) (hlen : rs.length < recordBound) (he : e.Proper)
    (hpruned : Pruned dir rs.length d e) : KeptAmong N dir rs e where
  proper := he
  clear := by
    intro q hq content hfile
    rcases hpruned q with heq | ⟨heq, -⟩
    · exact h.clear q hq content (heq ▸ hfile)
    · rw [heq] at hfile
      exact absurd hfile (by simp)
  directories := fun name hname => h.directories name (hpruned.directory hname)
  holds := by
    intro i hi
    by_cases hlt : i < rs.length
    · rw [hpruned.at?_recordPath hlt (by omega)]
      exact h.holds i hi
    · obtain rfl : i = rs.length := by omega
      rw [hpruned.at?_of_none (h.holds.at?_of_le hi (Nat.le_refl _)),
        List.getElem?_eq_none (Nat.le_refl _)]
      rfl

/-- A directory among those that may be there bears the name of a record. -/
def Bars (N : String → Prop) : Prop := ∃ name, N name ∧ (indexOf? name).isSome

theorem not_bars : ¬ Bars fun _ => False := fun ⟨_, h, _⟩ => h

theorem Obstructed.bars {first : Nat} (h : Obstructed dir first d)
    (hdirectories : ∀ name, d.at? (dir ++ [name]) = some .directory → N name) : Bars N := by
  obtain ⟨name, i, hname, -, hnode⟩ := h
  exact ⟨name, hdirectories name hnode, by rw [hname]; rfl⟩

/-- Where nothing is left behind the first number without a record, nothing is at any number
there. -/
theorem KeptAmong.tidy (h : KeptAmong N dir rs d) (hdir : d.at? dir = some .directory)
    (hnone : ∀ name i, indexOf? name = some i → rs.length ≤ i → d.at? (dir ++ [name]) = none) :
    TidyAmong N dir rs d := by
  refine ⟨h.proper, hdir, h.directories, fun i hi => ?_⟩
  by_cases hlt : i < rs.length + 1
  · exact h.holds i hlt
  · rw [List.getElem?_eq_none (by omega), recordPath_eq,
      hnone _ i (indexOf?_recordName hi) (by omega)]
    rfl

/-- Nothing is left behind the first number without a record. -/
theorem KeptAmong.ensures_removeFrom (h : KeptAmong N dir rs d) (hlen : rs.length < recordBound)
    (hdir : d.at? dir = some .directory) :
    (removeFrom dir rs.length).Ensures (fun e => KeptAmong N dir rs e ∧ Pruned dir rs.length d e)
      (fun r e => (r = .ok () ∧ TidyAmong N dir rs e) ∨ (∃ f, r = .error f) ∧ Bars N) d := by
  refine (Journal.ensures_removeFrom rs.length h.proper hdir).mono_proper h.proper
    (fun e hproper he => ⟨h.pruned hlen hproper he, he⟩) ?_
  rintro r e hproper hpruned (⟨rfl, hgone⟩ | ⟨herr, hobstructed⟩)
  · exact .inl ⟨rfl, (h.pruned hlen hproper hpruned).tidy (by rw [hpruned.at?_self, hdir])
      fun name i hi hle => (hgone name i hi hle).2⟩
  · exact .inr ⟨herr, hobstructed.bars h.directories⟩

/-! ## Opening, clearing and appending -/

theorem KeptAmong.opened (h : KeptAmong N dir rs d) (he : e.Proper) (hopened : Opened d dir e) :
    KeptAmong N dir rs e := by
  refine ⟨he, ?_, fun name hname => ?_, fun i hi => ?_⟩
  · intro q hq content hfile
    rcases hopened q with heq | ⟨-, -, hdir⟩
    · exact h.clear q hq content (heq ▸ hfile)
    · rw [hdir] at hfile
      exact absurd hfile (by simp)
  · rw [hopened.at?_append] at hname
    exact h.directories name hname
  · rw [recordPath_eq, hopened.at?_append]
    exact h.holds i hi

theorem Kept.opened (h : Kept dir rs d) (he : e.Proper) (hopened : Opened d dir e) :
    Kept dir rs e :=
  kept_iff.2 ((kept_iff.1 h).opened he hopened)

/-- Opening makes the directory, counts the records up to the first number without one, and removes
what is taken for a record behind it. -/
theorem ensures_opens (hd : d.Proper) (hclear : d.Clear dir) {n : Nat}
    (hpresent : ∀ i < n, (d.at? (recordPath dir i)).isSome)
    (habsent : d.at? (recordPath dir n) = none) :
    (openIn dir).Ensures (fun e => ∃ c, c.Proper ∧ Opened d dir c ∧ Pruned dir n c e)
      (fun r e => (r = .ok ⟨dir, n, 0⟩ ∧ e.at? dir = some .directory ∧
        ∀ name i, indexOf? name = some i → n ≤ i → Gone dir d e name) ∨
        (∃ f, r = .error f) ∧ Obstructed dir n d) d := by
  refine Ensures.bind_ok (K := fun c => c.Proper ∧ Opened d dir c ∧ c.at? dir = some .directory)
    ((ensures_ensureDirectory hclear).mono_proper hd
      (fun c hc hopened => ⟨c, hc, hopened, .refl _ _ _⟩)
      fun r c hc hopened hQ => ⟨hQ.1, hc, hopened, hQ.2⟩) ?_
  rintro c - ⟨hc, hopened, hdir⟩
  refine (answers_count dir c).ensures_bind ?_
  -- the end is found before the steps run out: there are not more records than names
  have hfull : ∀ i < n, (c.at? (recordPath dir i)).isSome := by
    intro i hi
    rw [recordPath_eq, hopened.at?_append]
    exact hpresent i hi
  have hend : c.at? (recordPath dir n) = none := by
    rw [recordPath_eq, hopened.at?_append]
    exact habsent
  have hle : n ≤ (c.names dir).length := le_length_names recordName recordName_injective hfull
  refine (answers_extent hfull hend _ 0 (by omega) (by omega)).ensures_bind ?_
  refine Ensures.bind_or (a := ()) (E := Obstructed dir n c) (K := fun e =>
      e.at? dir = some .directory ∧ ∀ name i, indexOf? name = some i → n ≤ i → Gone dir d e name)
    ((ensures_removeFrom n hc hdir).mono (fun e he => ⟨c, hc, hopened, he⟩) ?_) ?_ ?_
  · rintro r e hpruned (⟨rfl, hgone⟩ | herr)
    · refine .inl ⟨rfl, by rw [hpruned.at?_self, hdir], fun name i hi hle => ?_⟩
      rw [Gone, ← hopened.at?_append]
      exact hgone name i hi hle
    · exact .inr herr
  · intro e hC hafter
    exact (answers_pure _ e).ensures hC (.inl ⟨rfl, hafter⟩)
  · rintro f e - ⟨name, i, hname, hle, hnode⟩
    rw [hopened.at?_append] at hnode
    exact .inr ⟨⟨f, rfl⟩, name, i, hname, hle, hnode⟩

/-- The records on the disk are the journal's when it is opened. -/
theorem KeptAmong.ensures_openIn (h : KeptAmong N dir rs d) (hlen : rs.length < recordBound) :
    (openIn dir).Ensures
      (fun e => KeptAmong N dir rs e ∧ ∀ q, ¬ q <+: dir → q.dropLast ≠ dir → e.at? q = d.at? q)
      (fun r e => (r = .ok ⟨dir, rs.length, 0⟩ ∧ TidyAmong N dir rs e) ∨
        (∃ f, r = .error f) ∧ Bars N) d := by
  have hpresent : ∀ i < rs.length, (d.at? (recordPath dir i)).isSome := by
    intro i hi
    rw [h.holds.at?_of_lt (by omega) hi]
    rfl
  have habsent := h.holds.at?_of_le (Nat.lt_succ_self _) (Nat.le_refl _)
  have hkept : ∀ e, e.Proper → (∃ c, c.Proper ∧ Opened d dir c ∧ Pruned dir rs.length c e) →
      KeptAmong N dir rs e := by
    rintro e he ⟨c, hc, hopened, hpruned⟩
    exact (h.opened hc hopened).pruned hlen he hpruned
  refine (ensures_opens h.proper h.clear hpresent habsent).mono_proper h.proper ?_ ?_
  · rintro e he ⟨c, hc, hopened, hpruned⟩
    refine ⟨hkept e he ⟨c, hc, hopened, hpruned⟩, fun q hq hne => ?_⟩
    rw [hpruned.at?_of_dropLast_ne hne, hopened.at?_elsewhere hq]
  · rintro r e he hC (⟨rfl, hdir, hgone⟩ | ⟨herr, hobstructed⟩)
    · exact .inl ⟨rfl, (hkept e he hC).tidy hdir fun name i hi hle => (hgone name i hi hle).2⟩
    · exact .inr ⟨herr, hobstructed.bars h.directories⟩

/-- A journal that is kept is opened with its records, and is tidy then. -/
theorem ensures_openIn (h : Kept dir rs d) (hlen : rs.length < recordBound) :
    (openIn dir).Ensures
      (fun e => Kept dir rs e ∧ ∀ q, ¬ q <+: dir → q.dropLast ≠ dir → e.at? q = d.at? q)
      (fun r e => r = .ok ⟨dir, rs.length, 0⟩ ∧ Tidy dir rs e) d := by
  refine ((kept_iff.1 h).ensures_openIn hlen).mono (fun e he => ⟨kept_iff.2 he.1, he.2⟩) ?_
  rintro r e - (⟨hr, htidy⟩ | ⟨-, hbars⟩)
  · exact ⟨hr, tidy_iff.2 htidy⟩
  · exact absurd hbars not_bars

/-- Once its first record is gone, a journal holds no record while the others go. -/
theorem ensures_removeRange (count index : Nat) (h : KeptAmong N dir [] d)
    (hdir : d.at? dir = some .directory) (hbound : index + count ≤ recordBound) :
    (removeRange dir index count).Ensures (KeptAmong N dir [])
      (fun r e => (r = .ok () ∧ KeptAmong N dir [] e ∧ e.at? dir = some .directory) ∨
        (∃ f, r = .error f) ∧ Bars N) d := by
  induction count generalizing d index with
  | zero => exact (answers_pure () d).ensures h (.inl ⟨rfl, h, hdir⟩)
  | succ count ih =>
    have hindex : indexOf? (recordName index) = some index := indexOf?_recordName (by omega)
    by_cases hnode : d.at? (dir ++ [recordName index]) = some .directory
    · have hbars : Bars N := ⟨_, h.directories _ hnode, by rw [hindex]; rfl⟩
      exact (answers_discard_directory hnode).bind_error.ensures h (.inr ⟨⟨_, rfl⟩, hbars⟩)
    have hgone := ensures_discard h.proper (p := dir ++ [recordName index])
      (by rwa [List.dropLast_concat]) hnode
    have hpruned : ∀ e, (∀ q, e.at? q = if q = dir ++ [recordName index] then none else d.at? q) →
        Pruned dir 0 d e := fun e he => .of_discard hindex (Nat.zero_le index) he
    refine Ensures.bind_ok (K := fun e => KeptAmong N dir [] e ∧ e.at? dir = some .directory)
      (hgone.mono_proper h.proper ?_ fun a e hproper _ hQ => ⟨hQ.1, ?_, ?_⟩) ?_
    · rintro e hproper (rfl | he)
      · exact h
      · exact h.pruned (by decide) hproper (hpruned e he)
    · exact h.pruned (by decide) hproper (hpruned e hQ.2)
    · rw [(hpruned e hQ.2).at?_self, hdir]
    · rintro e - ⟨hkept, hdir⟩
      exact ih (index + 1) hkept hdir (by omega)

/-- The first record goes first, and without it a journal holds none. -/
theorem KeptAmong.kept_nil (h : KeptAmong N dir rs d) (hdir : d.at? dir = some .directory)
    (he : e.Proper)
    (hgone : ∀ q, e.at? q = if q = dir ++ [recordName 0] then none else d.at? q) :
    KeptAmong N dir [] e ∧ e.at? dir = some .directory := by
  have hpruned : Pruned dir 0 d e :=
    .of_discard (indexOf?_recordName (i := 0) (by decide)) (Nat.le_refl 0) hgone
  have hdir' : e.at? dir = some .directory := by rw [hpruned.at?_self, hdir]
  refine ⟨⟨he, he.clear hdir', fun name hname => h.directories name (hpruned.directory hname), ?_⟩,
    hdir'⟩
  exact Holds.nil (by rw [recordPath_eq, hgone, if_pos rfl])

/-- A journal of one record holds it, or none, while files go. -/
theorem KeptAmong.pruned_single (h : KeptAmong N dir rs d) (hlen : rs.length ≤ 1)
    (hdir : d.at? dir = some .directory) (he : e.Proper) (hpruned : Pruned dir 0 d e) :
    KeptAmong N dir rs e ∨ KeptAmong N dir [] e := by
  have hdir' : e.at? dir = some .directory := by rw [hpruned.at?_self, hdir]
  have hdirectories := fun name hname => h.directories name (hpruned.directory hname)
  rcases hpruned (recordPath dir 0) with hsame | ⟨hgone, -⟩
  · refine .inl ⟨he, he.clear hdir', hdirectories, fun i hi => ?_⟩
    by_cases hzero : i = 0
    · rw [hzero, hsame]
      exact h.holds 0 (by omega)
    · rw [List.getElem?_eq_none (by omega)]
      exact hpruned.at?_of_none (h.holds.at?_of_le hi (by omega))
  · exact .inr ⟨he, he.clear hdir', hdirectories, .nil hgone⟩

/-- On the way a journal that is cleared holds all its records or none. It may hold fewer records
than it counts, and one that it does not count. -/
theorem KeptAmong.ensures_clear (h : KeptAmong N dir rs d) (hdir : d.at? dir = some .directory)
    {n : Nat} (hlen : rs.length ≤ max 1 n) (hn : n < recordBound) (cursor : Nat) :
    (Journal.clear ⟨dir, n, cursor⟩).Ensures (fun e => KeptAmong N dir rs e ∨ KeptAmong N dir [] e)
      (fun r e => (r = .ok ⟨dir, 0, 0⟩ ∧ TidyAmong N dir [] e) ∨
        (∃ f, r = .error f) ∧ Bars N) d := by
  have hfirst : (removeRange dir 0 n).Ensures (fun e => KeptAmong N dir rs e ∨ KeptAmong N dir [] e)
      (fun r e => (r = .ok () ∧ e.at? dir = some .directory ∧
        ((rs.length ≤ 1 ∧ KeptAmong N dir rs e) ∨ KeptAmong N dir [] e)) ∨
        (∃ f, r = .error f) ∧ Bars N) d := by
    cases n with
    | zero => exact (answers_pure () d).ensures (.inl h) (.inl ⟨rfl, hdir, .inl ⟨by omega, h⟩⟩)
    | succ n =>
      -- the first removal is the one that counts: the journal is read from number 0 on
      by_cases hnode : d.at? (dir ++ [recordName 0]) = some .directory
      · have hbars : Bars N :=
          ⟨_, h.directories _ hnode, by rw [indexOf?_recordName (by decide)]; rfl⟩
        exact (answers_discard_directory hnode).bind_error.ensures (.inl h)
          (.inr ⟨⟨_, rfl⟩, hbars⟩)
      have hgone := ensures_discard h.proper (p := dir ++ [recordName 0])
        (by rw [List.dropLast_concat]; exact hdir) hnode
      refine Ensures.bind_ok (K := fun e => KeptAmong N dir [] e ∧ e.at? dir = some .directory)
        (hgone.mono_proper h.proper ?_ fun a e hproper _ hQ =>
          ⟨hQ.1, h.kept_nil hdir hproper hQ.2⟩) ?_
      · rintro e hproper (rfl | he)
        · exact .inl h
        · exact .inr (h.kept_nil hdir hproper he).1
      · rintro e - ⟨hkept, hdir'⟩
        exact (ensures_removeRange n 1 hkept hdir' (by omega)).mono (fun e' h' => .inr h')
          fun a e' _ hQ => hQ.imp_left fun hok => ⟨hok.1, hok.2.2, .inr hok.2.1⟩
  refine Ensures.bind_or hfirst ?_ fun g e _ hbars => .inr ⟨⟨g, rfl⟩, hbars⟩
  rintro e - ⟨hdir', hkept⟩
  have hrest : (removeFrom dir 0).Ensures (fun e => KeptAmong N dir rs e ∨ KeptAmong N dir [] e)
      (fun r e => (r = .ok () ∧ TidyAmong N dir [] e) ∨ (∃ f, r = .error f) ∧ Bars N) e := by
    rcases hkept with ⟨hle, hkept⟩ | hkept
    · refine (Journal.ensures_removeFrom 0 hkept.proper hdir').mono_proper hkept.proper
        (fun e' he' => hkept.pruned_single hle hdir' he') ?_
      rintro r e' he' hpruned (⟨rfl, hgone⟩ | ⟨herr, hobstructed⟩)
      · refine .inl ⟨rfl, he', by rw [hpruned.at?_self, hdir'],
          fun name hname => hkept.directories name (hpruned.directory hname), fun i hi => ?_⟩
        rw [recordPath_eq, (hgone _ i (indexOf?_recordName hi) (Nat.zero_le i)).2]
        rfl
      · exact .inr ⟨herr, hobstructed.bars hkept.directories⟩
    · exact (hkept.ensures_removeFrom (by decide) hdir').mono (fun e' h' => .inr h'.1)
        fun a e' _ hQ => hQ
  refine Ensures.bind_or hrest ?_ fun g e' _ hbars => .inr ⟨⟨g, rfl⟩, hbars⟩
  intro e' hC htidy
  exact (answers_pure _ e').ensures hC (.inl ⟨rfl, htidy⟩)

/-- While a journal is cleared its records are all there, or none is. -/
theorem Kept.ensures_clear (h : Kept dir rs d) (hdir : d.at? dir = some .directory) {n : Nat}
    (hlen : rs.length ≤ max 1 n) (hn : n < recordBound) (cursor : Nat) :
    (Journal.clear ⟨dir, n, cursor⟩).Ensures (fun e => Kept dir rs e ∨ Kept dir [] e)
      (fun r e => r = .ok ⟨dir, 0, 0⟩ ∧ Tidy dir [] e) d := by
  refine ((kept_iff.1 h).ensures_clear hdir hlen hn cursor).mono
    (fun e he => he.imp kept_iff.2 kept_iff.2) ?_
  rintro r e - (⟨hr, htidy⟩ | ⟨-, hbars⟩)
  · exact ⟨hr, tidy_iff.2 htidy⟩
  · exact absurd hbars not_bars

/-- A record is added in one step. It comes into the place of a last one that is not counted. The
place may not be a directory, nor that of its draft. -/
theorem TidyAmong.ensures_append (h : TidyAmong N dir rs d) (r : Record) {n : Nat}
    (hn : n ≤ rs.length) (hlen : rs.length ≤ n + 1) (cursor : Nat)
    (hdraft : d.at? (draftPath dir (toString n)) ≠ some .directory)
    (hentry : d.at? (recordPath dir n) ≠ some .directory) :
    (append ⟨dir, n, cursor⟩ r).Ensures
      (fun e => TidyAmong N dir rs e ∨ TidyAmong N dir (rs.take n ++ [r]) e)
      (fun j e => j = .ok ⟨dir, n + 1, cursor⟩ ∧ TidyAmong N dir (rs.take n ++ [r]) e) d := by
  have hself : ∀ stem, dir ≠ draftPath dir stem ∧ dir ≠ entryPath dir stem := by
    simp [draftPath, entryPath]
  have hdrafted : ∀ e, e.Proper → Drafted d dir (toString n) e → TidyAmong N dir rs e := by
    intro e hproper he
    refine ⟨hproper, ?_, fun name hname => h.directories name (he.directory hname), fun i hi => ?_⟩
    · rw [he.2 dir (hself _).1, h.directory]
    · rw [recordPath, he.at?_entryPath]
      exact h.holds i hi
  have hwritten : ∀ e, e.Proper → Written d dir (toString n) (Wire.encode r) e →
      TidyAmong N dir (rs.take n ++ [r]) e := by
    intro e hproper he
    refine ⟨hproper, ?_, fun name hname => h.directories name (he.directory hname), fun i hi => ?_⟩
    · rw [he, if_neg (hself _).2, if_neg (hself _).1, h.directory]
    · rw [recordPath, he.at?_entryPath]
      by_cases hlast : i = n
      · subst hlast
        rw [if_pos rfl, List.getElem?_append_right (List.length_take_le i rs),
          List.length_take_of_le hn]
        simp
      · have hstem : toString i ≠ toString n := fun heq => hlast (Nat.repr_injective heq)
        rw [if_neg hstem]
        show d.at? (recordPath dir i) = _
        rw [h.holds i hi]
        by_cases hlt : i < n
        · rw [List.getElem?_append_left (by simp; omega), List.getElem?_take_of_lt hlt]
        · rw [List.getElem?_eq_none (by omega), List.getElem?_eq_none (by simp; omega)]
  have hwrite := ensures_writeEntry (Wire.encode r) h.directory hdraft hentry
  refine Ensures.bind_ok (K := TidyAmong N dir (rs.take n ++ [r])) (hwrite.mono_proper h.proper ?_
    fun a e hproper _ hQ => ⟨hQ.1, hwritten e hproper hQ.2⟩) ?_
  · rintro e hproper (he | he)
    · exact .inl (hdrafted e hproper he)
    · exact .inr (hwritten e hproper he)
  · intro e hC htidy
    exact (answers_pure _ e).ensures hC ⟨rfl, htidy⟩

/-- A record is added in one step. It comes into the place of a last one that is not counted. -/
theorem Tidy.ensures_append (h : Tidy dir rs d) (r : Record) {n : Nat} (hn : n ≤ rs.length)
    (hlen : rs.length ≤ n + 1) (cursor : Nat) :
    (append ⟨dir, n, cursor⟩ r).Ensures (fun e => Tidy dir rs e ∨ Tidy dir (rs.take n ++ [r]) e)
      (fun j e => j = .ok ⟨dir, n + 1, cursor⟩ ∧ Tidy dir (rs.take n ++ [r]) e) d := by
  have hdraft := h.flat s!"{toString n}.{draftExtension}"
  refine ((tidy_iff.1 h).ensures_append r hn hlen cursor hdraft (h.flat (recordName n))).mono
    (fun e he => he.imp tidy_iff.2 tidy_iff.2) ?_
  rintro j e - ⟨hj, htidy⟩
  exact ⟨hj, tidy_iff.2 htidy⟩

/-! ## Reading -/

/-- A record is loaded as it was appended. -/
theorem answers_load {bound : Nat} (h : Holds dir rs bound d) (hlen : rs.length < bound) {i : Nat}
    (hi : i < rs.length) (hsize : rs[i].data.length < Nat.pow 256 8) (size cursor : Nat) :
    (load ⟨dir, size, cursor⟩ i).Answers d (.ok rs[i]) := by
  refine (answers_read (h.at?_of_lt (by omega) hi)).bind ?_
  rw [Record.ofBytes_encode _ hsize]
  exact answers_lift _ d

/-- The records are read one after the other. -/
theorem answers_next {bound : Nat} (h : Holds dir rs bound d) (hlen : rs.length < bound) {i : Nat}
    (hi : i < rs.length) (hsize : rs[i].data.length < Nat.pow 256 8) :
    (next ⟨dir, rs.length, i⟩).Answers d (.ok (some rs[i], ⟨dir, rs.length, i + 1⟩)) := by
  have hnext : hasNext ⟨dir, rs.length, i⟩ = true := by simpa [hasNext] using hi
  unfold next
  rw [if_pos hnext]
  exact (answers_load h hlen hi hsize _ _).bind (answers_pure _ d)

theorem answers_next_end {size cursor : Nat} (h : size ≤ cursor) :
    (next ⟨dir, size, cursor⟩).Answers d (.ok (none, ⟨dir, size, cursor⟩)) := by
  have hnext : hasNext ⟨dir, size, cursor⟩ = false := by simpa [hasNext] using h
  unfold next
  rw [hnext]
  exact answers_pure _ d

/-- The records on a disk from a number on, as far as they can be read, at most `steps` of them. -/
def recordsFrom (dir : Path) (d : Disk) : Nat → Nat → List Record
  | 0, _ => []
  | steps + 1, index =>
    match d.at? (recordPath dir index) with
    | some (.file content) =>
      match (Wire.ofBytes content : Except CodecFault Record) with
      | .ok r => r :: recordsFrom dir d steps (index + 1)
      | .error _ => []
    | _ => []

/-- The records of the journal on a disk. -/
def recordsOn (dir : Path) (d : Disk) : List Record :=
  recordsFrom dir d ((d.names dir).length + 1) 0

theorem recordsFrom_eq {bound : Nat}
    (h : Holds dir rs bound d) (hbound : rs.length < bound)
    (hdata : ∀ r ∈ rs, r.data.length < Nat.pow 256 8) (steps index : Nat)
    (hle : index ≤ rs.length) (hlt : rs.length < index + steps) :
    recordsFrom dir d steps index = rs.drop index := by
  induction steps generalizing index with
  | zero => omega
  | succ steps ih =>
    by_cases hi : index < rs.length
    · rw [List.drop_eq_getElem_cons hi, ← ih (index + 1) hi (by omega)]
      simp only [recordsFrom, h.at?_of_lt (by omega) hi,
        Record.ofBytes_encode _ (hdata _ (List.getElem_mem hi))]
    · have hend : d.at? (recordPath dir index) = none := h.at?_of_le (by omega) (by omega)
      rw [List.drop_eq_nil_of_le (by omega)]
      simp only [recordsFrom, hend]

/-- The records of a journal are read back. -/
theorem recordsOn_eq {bound : Nat}
    (h : Holds dir rs bound d) (hbound : rs.length < bound)
    (hdata : ∀ r ∈ rs, r.data.length < Nat.pow 256 8) : recordsOn dir d = rs := by
  have hfull : ∀ i < rs.length, (d.at? (dir ++ [recordName i])).isSome := by
    intro i hi
    rw [← recordPath_eq, h.at?_of_lt (by omega) hi]
    rfl
  have hle : rs.length ≤ (d.names dir).length :=
    le_length_names recordName recordName_injective hfull
  exact recordsFrom_eq h hbound hdata _ 0 (by omega) (by omega)

/-! ## Paths outside the directory -/

theorem within_removeNamed (first : Nat) (names : List String) :
    (removeNamed dir first names).Within (fun q => q.dropLast = dir) := by
  induction names with
  | nil => exact trivial
  | cons name rest ih =>
    rw [removeNamed_cons]
    split
    · refine Within.bind ⟨?_, fun _ => trivial⟩ fun _ => ih
      rintro q rfl
      exact List.dropLast_concat
    · exact ih

theorem within_removeRange (count index : Nat) :
    (removeRange dir index count).Within (fun q => q.dropLast = dir) := by
  induction count generalizing index with
  | zero => exact trivial
  | succ count ih =>
    refine Within.bind ⟨?_, fun _ => trivial⟩ fun _ => ih (index + 1)
    rintro q rfl
    exact dropLast_entryPath

theorem within_clear (j : Journal) : j.clear.Within (fun q => q.dropLast = j.dir) := by
  refine Within.bind (within_removeRange _ _) fun _ => Within.bind ?_ fun _ => trivial
  exact Within.bind (fun _ => trivial) fun _ => within_removeNamed _ _

theorem within_append (j : Journal) (r : Record) :
    (j.append r).Within (fun q => q.dropLast = j.dir) := by
  refine Within.bind (within_writeEntry.mono ?_) fun _ => trivial
  rintro q (rfl | rfl)
  · exact dropLast_draftPath
  · exact dropLast_entryPath

theorem within_extent {P : Path → Prop} (dir : Path) (steps index : Nat) :
    (extent dir steps index).Within P := by
  induction steps generalizing index with
  | zero => exact trivial
  | succ steps ih =>
    refine Within.bind (fun _ => trivial) fun found => ?_
    cases found
    · exact trivial
    · exact ih (index + 1)

/-- Opening touches the way to the directory and the files in it. -/
theorem within_openIn (dir : Path) :
    (openIn dir).Within (fun q => q <+: dir ∨ q.dropLast = dir) := by
  refine Within.bind (Action.Within.mono (within_ensureDirectory dir) fun _ => .inl) fun _ =>
    Within.bind (fun _ => trivial) fun entries => Within.bind (within_extent ..) fun size =>
      Within.bind ?_ fun _ => trivial
  refine Within.bind (fun _ => trivial) fun names => ?_
  exact Action.Within.mono (within_removeNamed _ _) fun _ => .inr

theorem within_next {P : Path → Prop} (j : Journal) : j.next.Within P := by
  unfold next
  split
  · refine Within.bind ?_ fun _ => trivial
    exact Within.bind (fun _ => trivial) fun content => trivial
  · exact trivial

end Journal

end RingStore
