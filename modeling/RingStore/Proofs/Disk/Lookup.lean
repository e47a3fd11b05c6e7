import RingStore.Disk.Tree
import Mathlib.Tactic.Common
import Mathlib.Data.List.Nodup
import Mathlib.Data.List.Perm.Subperm

/-!
# What is at a path after a change

A disk is known by what is at each path. These theorems say which paths a change touches and what is
at them afterwards: everything else stays (`at?_of_apply`). A disk is `Proper` if every node lies in
a directory, and every change keeps it so (`Proper.apply`).
-/

namespace RingStore

namespace Disk

variable {d d' : Disk} {p q : Path} {node : Node}

@[simp] theorem at?_nil (d : Disk) : d.at? [] = some .directory := rfl

theorem at?_of_ne_nil (h : p ≠ []) : d.at? p = d.nodes.lookup p := by simp [at?, h]

theorem ne_nil_of_at?_ne (h : d.at? p ≠ some .directory) : p ≠ [] := by
  rintro rfl
  exact h rfl

/-- The root is no file. -/
theorem ne_nil_of_file {content : Bytes} (h : d.at? p = some (.file content)) : p ≠ [] :=
  ne_nil_of_at?_ne (d := d) (by simp [h])

theorem ne_nil_of_none (h : d.at? p = none) : p ≠ [] :=
  ne_nil_of_at?_ne (d := d) (by simp [h])

/-- The nodes with a new node in place of those at a path. -/
def replaced (p : Path) (node : Node) (l : List (Path × Node)) : List (Path × Node) :=
  l.map fun (q, old) => if q = p then (q, node) else (q, old)

theorem replaced_cons (r : Path) (old : Node) (l : List (Path × Node)) :
    replaced p node ((r, old) :: l) =
      (if r = p then (r, node) else (r, old)) :: replaced p node l := rfl

/-- Where a node is put it is found. -/
theorem lookup_replaced_self (l : List (Path × Node)) (h : (l.lookup p).isSome) :
    (replaced p node l).lookup p = some node := by
  induction l with
  | nil => simp at h
  | cons e l ih =>
    obtain ⟨r, old⟩ := e
    by_cases hr : r = p
    · subst hr
      simp [replaced]
    · have hpr : (p == r) = false := by simpa using Ne.symm hr
      rw [List.lookup_cons, hpr] at h
      rw [replaced_cons, if_neg hr, List.lookup_cons, hpr]
      exact ih h

/-- Everything else is found as before. -/
theorem lookup_replaced_of_ne (l : List (Path × Node)) (h : q ≠ p) :
    (replaced p node l).lookup q = l.lookup q := by
  induction l with
  | nil => rfl
  | cons e l ih =>
    obtain ⟨r, old⟩ := e
    rw [replaced_cons]
    by_cases hr : r = p
    · subst hr
      have hqr : (q == r) = false := by simpa using h
      rw [if_pos rfl, List.lookup_cons, List.lookup_cons, hqr]
      exact ih
    · rw [if_neg hr, List.lookup_cons, List.lookup_cons]
      cases q == r with
      | true => rfl
      | false => exact ih

/-- Where a node is taken away nothing is found. -/
theorem lookup_filter_self (l : List (Path × Node)) (p : Path) :
    (l.filter (·.1 ≠ p)).lookup p = none := by
  rw [List.lookup_eq_none_iff]
  intro e he
  simpa using Ne.symm (of_decide_eq_true (List.mem_filter.1 he).2)

/-- What is not taken away is found as before. -/
theorem lookup_filter_of_ne (l : List (Path × Node)) (h : q ≠ p) :
    (l.filter (·.1 ≠ p)).lookup q = l.lookup q := by
  induction l with
  | nil => rfl
  | cons e l ih =>
    obtain ⟨r, old⟩ := e
    by_cases hr : r = p
    · subst hr
      have hqr : (q == r) = false := by simpa using h
      rw [List.filter_cons_of_neg (by simp), ih, List.lookup_cons, hqr]
    · rw [List.filter_cons_of_pos (by simpa using hr), List.lookup_cons, List.lookup_cons, ih]

/-- Putting a node at a path changes what is at this path and nothing else. -/
theorem at?_set (h : p ≠ []) (q : Path) :
    (d.set p node).at? q = if q = p then some node else d.at? q := by
  by_cases hq : q = []
  · subst hq
    simp [Ne.symm h]
  rw [at?_of_ne_nil hq, at?_of_ne_nil hq]
  by_cases hqp : q = p
  · subst hqp
    rw [if_pos rfl, set]
    split
    · rename_i hp
      exact lookup_replaced_self _ hp
    · simp
  · rw [if_neg hqp, set]
    split
    · exact lookup_replaced_of_ne _ hqp
    · have hqp' : (q == p) = false := by simpa using hqp
      rw [List.lookup_cons, hqp']

/-- Taking a node away changes what is at its path and nothing else. -/
theorem at?_erase (h : p ≠ []) (q : Path) :
    (d.erase p).at? q = if q = p then none else d.at? q := by
  by_cases hq : q = []
  · subst hq
    simp [Ne.symm h]
  rw [at?_of_ne_nil hq, at?_of_ne_nil hq]
  by_cases hqp : q = p
  · subst hqp
    rw [if_pos rfl]
    exact lookup_filter_self _ _
  · rw [if_neg hqp]
    exact lookup_filter_of_ne _ hqp

/-- What is at each path after a file was moved. -/
theorem at?_rename {source target : Path} (hs : source ≠ []) (ht : target ≠ []) (q : Path) :
    ((d.erase source).set target node).at? q =
      if q = target then some node else if q = source then none else d.at? q := by
  rw [at?_set ht, at?_erase hs]

/-- A name is listed in a directory exactly if something is there. -/
theorem mem_names {dir : Path} {name : String} :
    name ∈ d.names dir ↔ (d.at? (dir ++ [name])).isSome := by
  rw [at?_of_ne_nil (by simp), List.lookup_isSome_iff]
  unfold names
  simp only [List.mem_filterMap, Prod.exists, beq_iff_eq]
  constructor
  · rintro ⟨q, node, hmem, hq⟩
    split at hq
    · rename_i h
      refine ⟨q, node, hmem, ?_⟩
      have hlast := List.dropLast_append_getLast? _ hq
      rwa [h.2] at hlast
    · exact absurd hq (by simp)
  · rintro ⟨q, node, hmem, rfl⟩
    exact ⟨_, node, hmem, by simp⟩

/-- A directory has at least as many names as there are numbers below `n`, if each of them names
something else in it. -/
theorem le_length_names {dir : Path} (name : Nat → String) (hinj : name.Injective) {n : Nat}
    (h : ∀ i < n, (d.at? (dir ++ [name i])).isSome) : n ≤ (d.names dir).length := by
  have hnodup : ((List.range n).map name).Nodup := List.nodup_range.map hinj
  have hsub : (List.range n).map name ⊆ d.names dir := by
    intro s hs
    obtain ⟨i, hi, rfl⟩ := List.mem_map.1 hs
    exact mem_names.2 (h i (List.mem_range.1 hi))
  have hlen := (List.subperm_of_subset hnodup hsub).length_le
  rwa [List.length_map, List.length_range] at hlen

/-! ## Changes -/

section Apply

variable {content : Bytes} {source target : Path}

/-- A node is added to a directory only. -/
theorem add_eq_ok (h : d.add p node = .ok d') :
    d.at? p.dropLast = some .directory ∧ d' = d.set p node := by
  unfold add at h
  split at h
  · rename_i hdir
    exact ⟨hdir, (Except.ok.inj h).symm⟩
  · exact absurd h (by simp)
  · exact absurd h (by simp)

theorem add_eq (h : d.at? p.dropLast = some .directory) : d.add p node = .ok (d.set p node) := by
  rw [add, h]

/-- A file is made in a directory, over a file or where nothing is. -/
theorem apply_create (h : d.at? p.dropLast = some .directory) (hp : d.at? p ≠ some .directory) :
    d.apply (.create p) = .ok (d.set p (.file [])) := by
  cases hnode : d.at? p with
  | none => simp only [apply, hnode, add_eq h]
  | some node =>
    cases node with
    | file _ => simp only [apply, hnode]
    | directory => exact absurd hnode hp

/-- A file that was created is empty, and stands in the place of a file or in a directory. -/
theorem apply_create_eq_ok (h : d.apply (.create p) = .ok d') :
    p ≠ [] ∧ ((∃ old, d.at? p = some (.file old)) ∨ d.at? p.dropLast = some .directory) ∧
      d' = d.set p (.file []) := by
  cases hnode : d.at? p with
  | none =>
    simp only [apply, hnode] at h
    obtain ⟨hdir, rfl⟩ := add_eq_ok h
    exact ⟨ne_nil_of_none hnode, .inr hdir, rfl⟩
  | some node =>
    cases node with
    | file old =>
      simp only [apply, hnode, Except.ok.injEq] at h
      exact ⟨ne_nil_of_file hnode, .inl ⟨old, rfl⟩, h.symm⟩
    | directory => simp [apply, hnode] at h

theorem apply_write {old : Bytes} (h : d.at? p = some (.file old)) :
    d.apply (.write p content) = .ok (d.set p (.file content)) := by
  simp only [apply, h]

/-- Only a file that is there is written. -/
theorem apply_write_eq_ok (h : d.apply (.write p content) = .ok d') :
    (∃ old, d.at? p = some (.file old)) ∧ d' = d.set p (.file content) := by
  cases hnode : d.at? p with
  | none => simp [apply, hnode] at h
  | some node =>
    cases node with
    | file old =>
      simp only [apply, hnode, Except.ok.injEq] at h
      exact ⟨⟨old, rfl⟩, h.symm⟩
    | directory => simp [apply, hnode] at h

theorem apply_unlink (h : d.at? p = some (.file content)) :
    d.apply (.unlink p) = .ok (d.erase p) := by
  simp only [apply, h]

/-- Only a file that is there is unlinked. -/
theorem apply_unlink_eq_ok (h : d.apply (.unlink p) = .ok d') :
    (∃ old, d.at? p = some (.file old)) ∧ d' = d.erase p := by
  cases hnode : d.at? p with
  | none => simp [apply, hnode] at h
  | some node =>
    cases node with
    | file old =>
      simp only [apply, hnode, Except.ok.injEq] at h
      exact ⟨⟨old, rfl⟩, h.symm⟩
    | directory => simp [apply, hnode] at h

theorem apply_makeDirectory (h : d.at? p.dropLast = some .directory) (hp : d.at? p = none) :
    d.apply (.makeDirectory p) = .ok (d.set p .directory) := by
  simp only [apply, hp, add_eq h]

/-- A directory is made where nothing was. -/
theorem apply_makeDirectory_eq_ok (h : d.apply (.makeDirectory p) = .ok d') :
    d.at? p = none ∧ d.at? p.dropLast = some .directory ∧ d' = d.set p .directory := by
  cases hnode : d.at? p with
  | none =>
    simp only [apply, hnode] at h
    exact ⟨rfl, add_eq_ok h⟩
  | some node => simp [apply, hnode] at h

/-- A file is moved into a directory, over a file or to where nothing is. -/
theorem apply_rename (hs : d.at? source = some (.file content))
    (ht : d.at? target ≠ some .directory) (h : d.at? target.dropLast = some .directory) :
    d.apply (.rename source target) = .ok ((d.erase source).set target (.file content)) := by
  have hadd : (d.erase source).add target (.file content) =
      .ok ((d.erase source).set target (.file content)) := by
    apply add_eq
    rw [at?_erase (ne_nil_of_file hs), if_neg, h]
    intro heq
    rw [heq, hs] at h
    exact absurd h (by simp)
  cases htarget : d.at? target with
  | none => simp only [apply, hs, htarget, hadd]
  | some node =>
    cases node with
    | file _ => simp only [apply, hs, htarget, hadd]
    | directory => exact absurd htarget ht

/-- A file that was renamed has its content at its new path, where no directory was. -/
theorem apply_rename_eq_ok (h : d.apply (.rename source target) = .ok d') :
    ∃ content, d.at? source = some (.file content) ∧ d.at? target ≠ some .directory ∧
      (d.erase source).at? target.dropLast = some .directory ∧
      d' = (d.erase source).set target (.file content) := by
  cases hs : d.at? source with
  | none => simp [apply, hs] at h
  | some node =>
    cases node with
    | directory =>
      cases ht : d.at? target with
      | none => simp [apply, hs, ht] at h
      | some node => cases node <;> simp [apply, hs, ht] at h
    | file content =>
      cases ht : d.at? target with
      | none =>
        simp only [apply, hs, ht] at h
        exact ⟨content, rfl, by simp, add_eq_ok h⟩
      | some node =>
        cases node with
        | file _ =>
          simp only [apply, hs, ht] at h
          exact ⟨content, rfl, by simp, add_eq_ok h⟩
        | directory => simp [apply, hs, ht] at h

theorem apply_removeTree_eq_ok (h : d.apply (.removeTree p) = .ok d') :
    d' = ⟨d.nodes.filter fun (q, _) => !p.isPrefixOf q⟩ := by
  cases hnode : d.at? p with
  | none => simp [apply, hnode] at h
  | some node =>
    cases node with
    | file _ => simp [apply, hnode] at h
    | directory =>
      simp only [apply, hnode, Except.ok.injEq] at h
      exact h.symm

/-- What is not below a tree that is removed is found as before. -/
theorem lookup_filter_prefix (l : List (Path × Node)) (h : ¬ p <+: q) :
    (l.filter fun (r, _) => !p.isPrefixOf r).lookup q = l.lookup q := by
  induction l with
  | nil => rfl
  | cons e l ih =>
    obtain ⟨r, old⟩ := e
    by_cases hr : p.isPrefixOf r
    · have hqr : (q == r) = false := by
        rw [beq_eq_false_iff_ne]
        rintro rfl
        exact h (List.isPrefixOf_iff_prefix.1 hr)
      rw [List.filter_cons_of_neg (by simp [hr]), ih, List.lookup_cons, hqr]
    · rw [List.filter_cons_of_pos (by simp [hr]), List.lookup_cons, List.lookup_cons, ih]

end Apply

/-- The paths at which a change can put or take away something. -/
def Change.Touches (q : Path) : Change → Prop
  | .create p | .write p _ | .unlink p | .makeDirectory p => q = p
  | .rename source target => q = source ∨ q = target
  | .removeTree p => p <+: q

/-- A change leaves what is at the paths that it does not touch. -/
theorem at?_of_apply {c : Change} (h : d.apply c = .ok d') (hq : ¬ c.Touches q) :
    d'.at? q = d.at? q := by
  cases c with
  | create p =>
    have hq : q ≠ p := hq
    obtain ⟨hp, -, rfl⟩ := apply_create_eq_ok h
    rw [at?_set hp, if_neg hq]
  | write p content =>
    have hq : q ≠ p := hq
    obtain ⟨⟨old, hold⟩, rfl⟩ := apply_write_eq_ok h
    rw [at?_set (ne_nil_of_file hold), if_neg hq]
  | rename source target =>
    obtain ⟨content, hs, ht, -, rfl⟩ := apply_rename_eq_ok h
    obtain ⟨hqs, hqt⟩ := not_or.1 hq
    rw [at?_rename (ne_nil_of_file hs) (ne_nil_of_at?_ne ht), if_neg hqt, if_neg hqs]
  | unlink p =>
    have hq : q ≠ p := hq
    obtain ⟨⟨old, hold⟩, rfl⟩ := apply_unlink_eq_ok h
    rw [at?_erase (ne_nil_of_file hold), if_neg hq]
  | makeDirectory p =>
    have hq : q ≠ p := hq
    obtain ⟨hp, -, rfl⟩ := apply_makeDirectory_eq_ok h
    rw [at?_set (ne_nil_of_none hp), if_neg hq]
  | removeTree p =>
    obtain rfl := apply_removeTree_eq_ok h
    by_cases hnil : q = []
    · subst hnil
      rfl
    · rw [at?_of_ne_nil hnil, at?_of_ne_nil hnil]
      exact lookup_filter_prefix _ hq

/-! ## Proper disks -/

/-- Every node lies in a directory. -/
def Proper (d : Disk) : Prop :=
  ∀ p, p ≠ [] → (d.at? p).isSome → d.at? p.dropLast = some .directory

theorem dropLast_ne_self (h : p ≠ []) : p.dropLast ≠ p := by
  intro heq
  have hlen := congrArg List.length heq
  have hpos := List.length_pos_iff.2 h
  rw [List.length_dropLast] at hlen
  omega

/-- A node that is put into a directory leaves the disk proper. -/
theorem Proper.set (h : d.Proper) (hp : p ≠ []) (hdir : d.at? p.dropLast = some .directory)
    (hnode : d.at? p ≠ some .directory) : (d.set p node).Proper := by
  intro q hq hsome
  by_cases hqp : q = p
  · subst hqp
    rw [at?_set hp, if_neg (dropLast_ne_self hp), hdir]
  · rw [at?_set hp, if_neg hqp] at hsome
    have hparent := h q hq hsome
    rw [at?_set hp, if_neg, hparent]
    intro heq
    exact hnode (heq ▸ hparent)

/-- A node with nothing below it can be taken away. -/
theorem Proper.erase (h : d.Proper) (hp : p ≠ []) (hnode : d.at? p ≠ some .directory) :
    (d.erase p).Proper := by
  intro q hq hsome
  rw [at?_erase hp] at hsome
  split at hsome
  · simp at hsome
  · have hparent := h q hq hsome
    rw [at?_erase hp, if_neg, hparent]
    intro heq
    exact hnode (heq ▸ hparent)

/-- Every change keeps each node in a directory. -/
theorem Proper.apply {c : Change} (h : d.Proper) (hc : d.apply c = .ok d') : d'.Proper := by
  cases c with
  | create p =>
    obtain ⟨hp, hold, rfl⟩ := apply_create_eq_ok hc
    have hnode : d.at? p ≠ some .directory := by
      intro hdir
      simp [Disk.apply, hdir] at hc
    rcases hold with ⟨old, hold⟩ | hdir
    · exact h.set hp (h p hp (by simp [hold])) hnode
    · exact h.set hp hdir hnode
  | write p content =>
    obtain ⟨⟨old, hold⟩, rfl⟩ := apply_write_eq_ok hc
    have hp := ne_nil_of_file hold
    exact h.set hp (h p hp (by simp [hold])) (by simp [hold])
  | rename source target =>
    obtain ⟨content, hs, ht, hdir, rfl⟩ := apply_rename_eq_ok hc
    have hsource := ne_nil_of_file hs
    refine (h.erase hsource (by simp [hs])).set (ne_nil_of_at?_ne ht) hdir ?_
    rw [at?_erase hsource]
    split
    · simp
    · exact ht
  | unlink p =>
    obtain ⟨⟨old, hold⟩, rfl⟩ := apply_unlink_eq_ok hc
    exact h.erase (ne_nil_of_file hold) (by simp [hold])
  | makeDirectory p =>
    obtain ⟨hp, hdir, rfl⟩ := apply_makeDirectory_eq_ok hc
    exact h.set (ne_nil_of_none hp) hdir (by simp [hp])
  | removeTree p =>
    intro q hq hsome
    have hqp : ¬ p <+: q := by
      intro hpre
      obtain rfl := apply_removeTree_eq_ok hc
      rw [at?_of_ne_nil hq, List.lookup_isSome_iff] at hsome
      obtain ⟨⟨r, node⟩, hmem, heq⟩ := hsome
      obtain rfl : q = r := by simpa using heq
      have hkeep : (!p.isPrefixOf q) = true := (List.mem_filter.1 hmem).2
      rw [List.isPrefixOf_iff_prefix.2 hpre] at hkeep
      exact absurd hkeep (by simp)
    rw [at?_of_apply hc hqp] at hsome
    rw [at?_of_apply hc fun hpre => hqp (hpre.trans (List.dropLast_prefix q))]
    exact h q hq hsome

/-- Nothing lies below what is not a directory. -/
theorem Proper.at?_append (h : d.Proper) {name : String} (hp : d.at? p ≠ some .directory) :
    d.at? (p ++ [name]) = none := by
  by_contra hsome
  have hdir := h (p ++ [name]) (by simp) (Option.isSome_iff_ne_none.2 hsome)
  rw [List.dropLast_concat] at hdir
  exact hp hdir

theorem proper_empty : empty.Proper := by
  intro p hp hsome
  simp [at?_of_ne_nil hp, empty] at hsome

end Disk

end RingStore
