import RingStore.Proofs.Disk.Attempt

/-!
# Finished files and drafts

The files of a store and of a journal are named by a stem and an ending. Different stems name
different files, and no finished file is a draft. A file gets its content from a draft in one step:
on the way nothing but the draft differs (`Drafted`), and in the end the file has its content and
the draft is gone (`Written`).
-/

namespace RingStore

namespace Disk

namespace Attempt

variable {d e : Disk} {p q dir : Path} {stem stem' : String} {content : Bytes}

/-! ## Names -/

theorem toList_entryName (stem : String) :
    s!"{stem}.{entryExtension}".toList = stem.toList ++ ['.', 'e', 'n', 't', 'r', 'y'] := by
  simp [entryExtension, toString]

theorem toList_draftName (stem : String) :
    s!"{stem}.{draftExtension}".toList = stem.toList ++ ['.', 't', 'm', 'p'] := by
  simp [draftExtension, toString]

/-- Entries of different stems are different files. -/
theorem entryPath_inj (h : entryPath dir stem = entryPath dir stem') : stem = stem' := by
  have hname := congrArg String.toList (List.singleton_inj.1 (List.append_cancel_left h))
  rw [toList_entryName, toList_entryName] at hname
  exact String.toList_inj.1 (List.append_cancel_right hname)

/-- No entry is a draft. -/
theorem entryPath_ne_draftPath {dir' : Path} : entryPath dir stem ≠ draftPath dir' stem' := by
  intro h
  have hname := congrArg String.toList (List.append_singleton_inj.1 h).2
  rw [toList_entryName, toList_draftName] at hname
  have hlast := congrArg List.getLast? hname
  simp at hlast

/-- A name with an ending of its own names neither a finished file nor a draft. -/
theorem entryPath_ne_append {name : String} (h : name.toList.getLast? ≠ some 'y') :
    entryPath dir stem ≠ dir ++ [name] := by
  intro heq
  have hname := List.singleton_inj.1 (List.append_cancel_left heq)
  rw [← hname, toList_entryName] at h
  simp at h

theorem draftPath_ne_append {name : String} (h : name.toList.getLast? ≠ some 'p') :
    draftPath dir stem ≠ dir ++ [name] := by
  intro heq
  have hname := List.singleton_inj.1 (List.append_cancel_left heq)
  rw [← hname, toList_draftName] at h
  simp at h

@[simp] theorem dropLast_entryPath : (entryPath dir stem).dropLast = dir := by simp [entryPath]

@[simp] theorem dropLast_draftPath : (draftPath dir stem).dropLast = dir := by simp [draftPath]

theorem entryPath_ne_nil : entryPath dir stem ≠ [] := by simp [entryPath]

theorem draftPath_ne_nil : draftPath dir stem ≠ [] := by simp [draftPath]

/-! ## Writing a file -/

/-- Nothing differs but for the draft of a file, which is not a directory. -/
def Drafted (d : Disk) (dir : Path) (stem : String) (e : Disk) : Prop :=
  e.at? (draftPath dir stem) ≠ some .directory ∧
    ∀ q, q ≠ draftPath dir stem → e.at? q = d.at? q

/-- Nothing differs but for a file, which has the content, and its draft, which is gone. -/
def Written (d : Disk) (dir : Path) (stem : String) (content : Bytes) (e : Disk) : Prop :=
  ∀ q, e.at? q =
    if q = entryPath dir stem then some (.file content)
    else if q = draftPath dir stem then none
    else d.at? q

theorem Drafted.refl (h : d.at? (draftPath dir stem) ≠ some .directory) : Drafted d dir stem d :=
  ⟨h, fun _ _ => rfl⟩

theorem Drafted.set {content : Bytes} (h : Drafted d dir stem e) :
    Drafted d dir stem (e.set (draftPath dir stem) (.file content)) := by
  refine ⟨?_, fun q hq => ?_⟩
  · rw [at?_set draftPath_ne_nil, if_pos rfl]
    simp
  · rw [at?_set draftPath_ne_nil, if_neg hq, h.2 q hq]

/-- A draft leaves the entries as they are. -/
theorem Drafted.at?_entryPath (h : Drafted d dir stem e) :
    e.at? (entryPath dir stem') = d.at? (entryPath dir stem') :=
  h.2 _ entryPath_ne_draftPath

/-- No directory is new. -/
theorem Drafted.directory (h : Drafted d dir stem e) (hq : e.at? q = some .directory) :
    d.at? q = some .directory := by
  by_cases hqd : q = draftPath dir stem
  · rw [hqd] at hq
    exact absurd hq h.1
  · rwa [← h.2 q hqd]

theorem Written.at?_entryPath (h : Written d dir stem content e) :
    e.at? (entryPath dir stem') =
      if stem' = stem then some (.file content) else d.at? (entryPath dir stem') := by
  rw [h]
  by_cases hstem : stem' = stem
  · rw [hstem, if_pos rfl, if_pos rfl]
  · rw [if_neg fun heq => hstem (entryPath_inj heq), if_neg entryPath_ne_draftPath, if_neg hstem]

theorem Written.directory (h : Written d dir stem content e) (hq : e.at? q = some .directory) :
    d.at? q = some .directory := by
  rw [h] at hq
  split at hq
  · exact absurd hq (by simp)
  · split at hq
    · exact absurd hq (by simp)
    · exact hq

/-- A file is written as its draft is moved once it has all its content. -/
theorem ensures_writeEntry_of_rename {C : Disk → Prop} {Q : Except Fault Unit → Disk → Prop}
    (content : Bytes) (hdir : d.at? dir = some .directory)
    (hdraft : d.at? (draftPath dir stem) ≠ some .directory) (hC : ∀ e, Drafted d dir stem e → C e)
    (hmove : ∀ e, Drafted d dir stem e → e.at? (draftPath dir stem) = some (.file content) →
      (change (.rename (draftPath dir stem) (entryPath dir stem))).Ensures C Q e) :
    (writeEntry dir stem content).Ensures C Q d := by
  have hcreated : Drafted d dir stem (d.set (draftPath dir stem) (.file [])) :=
    (Drafted.refl hdraft).set
  have hfull : Drafted d dir stem ((d.set (draftPath dir stem) (.file [])).set (draftPath dir stem)
      (.file content)) := hcreated.set
  set d₁ := d.set (draftPath dir stem) (.file []) with hd₁
  set d₂ := d₁.set (draftPath dir stem) (.file content) with hd₂
  have hempty : d₁.at? (draftPath dir stem) = some (.file []) := by
    rw [hd₁, at?_set draftPath_ne_nil, if_pos rfl]
  have hwritten : d₂.at? (draftPath dir stem) = some (.file content) := by
    rw [hd₂, at?_set draftPath_ne_nil, if_pos rfl]
  refine Ensures.bind_ok (K := (· = d₁)) (ensures_change
    (apply_create (by rw [dropLast_draftPath, hdir]) hdraft) (hC _ (.refl hdraft)) (hC _ hcreated)
    ⟨rfl, rfl⟩) fun e₁ _ he₁ => ?_
  rw [he₁]
  refine Ensures.bind_ok (K := (· = d₂)) (ensures_change (apply_write hempty) (hC _ hcreated)
    (hC _ hfull) ⟨rfl, rfl⟩) fun e₂ _ he₂ => ?_
  rw [he₂]
  exact hmove d₂ hfull hwritten

/-- A file gets its content in one step. -/
theorem ensures_writeEntry (content : Bytes) (hdir : d.at? dir = some .directory)
    (hdraft : d.at? (draftPath dir stem) ≠ some .directory)
    (hentry : d.at? (entryPath dir stem) ≠ some .directory) :
    (writeEntry dir stem content).Ensures
      (fun e => Drafted d dir stem e ∨ Written d dir stem content e)
      (fun r e => r = .ok () ∧ Written d dir stem content e) d := by
  have hne : dir ≠ draftPath dir stem := by simp [draftPath]
  refine ensures_writeEntry_of_rename content hdir hdraft (fun _ => .inl) fun e hfull hwritten => ?_
  have hrename : e.apply (.rename (draftPath dir stem) (entryPath dir stem)) =
      .ok ((e.erase (draftPath dir stem)).set (entryPath dir stem) (.file content)) := by
    apply apply_rename hwritten
    · rw [hfull.at?_entryPath]
      exact hentry
    · rw [dropLast_entryPath, hfull.2 _ hne, hdir]
  have hmoved : Written d dir stem content
      ((e.erase (draftPath dir stem)).set (entryPath dir stem) (.file content)) := by
    intro q
    rw [at?_rename draftPath_ne_nil entryPath_ne_nil]
    by_cases hqd : q = draftPath dir stem
    · rw [if_pos hqd, if_pos hqd]
    · rw [if_neg hqd, if_neg hqd, hfull.2 q hqd]
  exact ensures_change hrename (.inl hfull) (.inr hmoved) ⟨rfl, hmoved⟩

/-- A directory in the file's place is not written over. -/
theorem ensures_writeEntry_directory (content : Bytes) (hdir : d.at? dir = some .directory)
    (hdraft : d.at? (draftPath dir stem) ≠ some .directory)
    (hentry : d.at? (entryPath dir stem) = some .directory) :
    (writeEntry dir stem content).Ensures (Drafted d dir stem)
      (fun r e => r = .error (.io (.disk .isADirectory)) ∧ Drafted d dir stem e) d := by
  refine ensures_writeEntry_of_rename content hdir hdraft (fun _ => id) fun e hfull hwritten => ?_
  have hfault : e.apply (.rename (draftPath dir stem) (entryPath dir stem)) =
      .error .isADirectory := by
    rw [← hfull.at?_entryPath] at hentry
    simp only [Disk.apply, hwritten, hentry]
  exact (answers_change_error hfault).ensures hfull ⟨rfl, hfull⟩

/-- A directory in the draft's place is not written over. -/
theorem answers_writeEntry_directory (content : Bytes)
    (hdraft : d.at? (draftPath dir stem) = some .directory) :
    (writeEntry dir stem content).Answers d (.error (.io (.disk .isADirectory))) := by
  have hfault : d.apply (.create (draftPath dir stem)) = .error .isADirectory := by
    simp only [Disk.apply, hdraft]
  exact (answers_change_error hfault).bind_error

/-- Writing an entry touches its file and its draft only. -/
theorem within_writeEntry :
    (writeEntry dir stem content).Within
      fun q => q = draftPath dir stem ∨ q = entryPath dir stem := by
  refine Within.bind ⟨fun q hq => .inl hq, fun _ => trivial⟩ fun _ => ?_
  refine Within.bind ⟨fun q hq => .inl hq, fun _ => trivial⟩ fun _ => ?_
  exact ⟨fun q hq => hq, fun _ => trivial⟩

/-! ## Removing a file -/

/-- A directory is not removed as a file is. -/
theorem answers_discard_directory (hp : d.at? p = some .directory) :
    (discard (.unlink p)).Answers d (.error (.io (.disk .isADirectory))) := by
  have hfault : d.apply (.unlink p) = .error .isADirectory := by simp only [Disk.apply, hp]
  exact Action.answers_change_error hfault (Action.answers_done _ _)

/-- A file that need not be there is gone in the end. -/
theorem ensures_discard (hd : d.Proper) (hdir : d.at? p.dropLast = some .directory)
    (hp : d.at? p ≠ some .directory) :
    (discard (.unlink p)).Ensures (fun e => e = d ∨ ∀ q, e.at? q = if q = p then none else d.at? q)
      (fun r e => r = .ok () ∧ ∀ q, e.at? q = if q = p then none else d.at? q) d := by
  cases hnode : d.at? p with
  | none =>
    have hsame : ∀ q, d.at? q = if q = p then none else d.at? q := by
      intro q
      split
      · rename_i hq
        rw [hq, hnode]
      · rfl
    have hfault : d.apply (.unlink p) = .error .notFound := by
      have hread := hd.read_of_none hdir hnode
      simp only [Disk.read, hnode, Except.error.injEq] at hread
      simp only [Disk.apply, hnode, hread]
    exact (Action.ensures_change_error hfault).2 (Action.ensures_done.2 ⟨.inl rfl, rfl, hsame⟩)
  | some node =>
    cases node with
    | directory => exact absurd hnode hp
    | file content =>
      have hgone := fun q => at?_erase (d := d) (ne_nil_of_file hnode) q
      exact (Action.ensures_change (apply_unlink hnode)).2
        ⟨.inl rfl, Action.ensures_done.2 ⟨.inr hgone, rfl, hgone⟩⟩

end Attempt

end Disk

end RingStore
