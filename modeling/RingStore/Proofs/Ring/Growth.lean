import RingStore.Proofs.Ring.Membership

/-!
# A ring that grows

Whoever joins a ring comes into one place of every walk round it, and the others keep their order.
So little moves (`grows_gently`): a key keeps its owner or is owned by the new member, and a cohort
stays as it is, or gets the new member in one place and may lose its last one (`Shifted`).
-/

namespace RingStore

namespace Ring

variable {r r' : Ring} {m : Member} {before after cohort cohort' : List Member}

/-! ## Cohorts before and after -/

/-- What becomes of a cohort as a member joins the ring. -/
inductive Shifted (m : Member) : List Member → List Member → Prop
  /-- The member does not come into the cohort. -/
  | same {cohort : List Member} (h : m ∉ cohort) : Shifted m cohort cohort
  /-- The member comes into a cohort that had room. -/
  | joined {before after : List Member} (h : m ∉ before ++ after) :
    Shifted m (before ++ after) (before ++ m :: after)
  /-- The member comes into the cohort, and the last one leaves it. -/
  | replaced {before after : List Member} {last : Member} (h : m ∉ before ++ after ++ [last]) :
    Shifted m (before ++ after ++ [last]) (before ++ m :: after)

/-- But for the new member, a cohort has only members that it had before, in the same order and from
the first one on. -/
theorem Shifted.filter_prefix (h : Shifted m cohort cohort') :
    cohort'.filter (· ≠ m) <+: cohort := by
  have hkept : ∀ l : List Member, m ∉ l → l.filter (· ≠ m) = l := fun l hl =>
    List.filter_eq_self.2 fun x hx => decide_eq_true fun heq => hl (heq ▸ hx)
  have hout : ∀ before after : List Member, m ∉ before ++ after →
      (before ++ m :: after).filter (· ≠ m) = before ++ after := by
    intro before after hm
    rw [List.filter_append, List.filter_cons_of_neg (by simp), ← List.filter_append, hkept _ hm]
  cases h with
  | same hm => exact ⟨[], by rw [List.append_nil, hkept _ hm]⟩
  | joined hm => exact ⟨[], by rw [List.append_nil, hout _ _ hm]⟩
  | replaced hm =>
    rw [hout _ _ fun hmem => hm (List.mem_append_left _ hmem)]
    exact List.prefix_append _ _

/-- The first members of a walk that another one comes into. -/
theorem shifted_take (hm : m ∉ before ++ after) (count : Nat) :
    Shifted m ((before ++ after).take count) ((before ++ m :: after).take count) := by
  have hfew : ∀ n, m ∉ (before ++ after).take n := fun n hmem => hm (List.mem_of_mem_take hmem)
  by_cases hcount : count ≤ before.length
  · have hsame : (before ++ m :: after).take count = (before ++ after).take count := by
      rw [List.take_append_of_le_length hcount, List.take_append_of_le_length hcount]
    rw [hsame]
    exact .same (hfew count)
  · -- the member is among the first ones, and takes a place that the others had
    obtain ⟨n, rfl⟩ : ∃ n, count = before.length + (n + 1) := ⟨count - before.length - 1, by omega⟩
    have hmem := hfew (before.length + (n + 1))
    rw [List.take_length_add_append] at hmem ⊢
    rw [List.take_length_add_append, List.take_succ_cons]
    by_cases hlast : n < after.length
    · rw [List.take_succ_eq_append_getElem hlast, ← List.append_assoc] at hmem ⊢
      exact .replaced hmem
    · rw [List.take_of_length_le (by omega)] at hmem ⊢
      rw [List.take_of_length_le (by omega)]
      exact .joined hmem

/-! ## The walk round a ring that grew -/

/-- The members on both sides of a place that is free. -/
theorem Ordered.split_free (h : r.Ordered) (hnew : ∀ x ∈ r.members, x.id ≠ m.id) :
    r.members = r.members.filter (·.id < m.id) ++ r.members.filter (m.id < ·.id) := by
  have habove : r.members.filter (m.id ≤ ·.id) = r.members.filter (m.id < ·.id) := by
    refine List.filter_congr fun x hx => ?_
    have hne := hnew x hx
    exact decide_eq_decide.2 (by omega)
  rw [← habove]
  exact h.split m.id

/-- A new member comes into one place of the walk. -/
theorem Ordered.walk_insert (h : r.Ordered) (hnew : ∀ x ∈ r.members, x.id ≠ m.id)
    (hinsert : r.insert m = .ok r') (place : Int) :
    ∃ before after, r.walk place = before ++ after ∧ r'.walk place = before ++ m :: after := by
  have hsplit := h.split_free hnew
  have hgrown :
      r'.members = r.members.filter (·.id < m.id) ++ m :: r.members.filter (m.id < ·.id) := by
    rcases insert_eq_ok_iff.1 hinsert with ⟨⟨x, hx, hid⟩, -⟩ | ⟨-, -, rfl⟩
    · exact absurd hid (hnew x hx)
    · rfl
  generalize r.members.filter (·.id < m.id) = low at hsplit hgrown
  generalize r.members.filter (m.id < ·.id) = high at hsplit hgrown
  simp only [walk, hsplit, hgrown, List.filter_append]
  by_cases hplace : place ≤ m.id
  · refine ⟨low.filter (place ≤ ·.id), high.filter (place ≤ ·.id) ++
      (low.filter (·.id < place) ++ high.filter (·.id < place)), List.append_assoc .., ?_⟩
    rw [List.filter_cons_of_pos (by simpa using hplace),
      List.filter_cons_of_neg (by simpa using hplace), List.append_assoc, List.cons_append]
  · have hbefore : m.id < place := by omega
    refine ⟨low.filter (place ≤ ·.id) ++ high.filter (place ≤ ·.id) ++ low.filter (·.id < place),
      high.filter (·.id < place), by simp only [List.append_assoc], ?_⟩
    rw [List.filter_cons_of_neg (by simpa using hbefore),
      List.filter_cons_of_pos (by simpa using hbefore)]
    simp only [List.append_assoc]

/-- Whoever leads a walk that another one comes into still does, or the other one does. -/
theorem head?_append_cons (before after : List Member) (m : Member) :
    (before ++ m :: after).head? = (before ++ after).head? ∨
      (before ++ m :: after).head? = some m := by
  cases before with
  | nil => exact .inr rfl
  | cons x before => exact .inl rfl

/-- What a cohort gets from the new member. -/
theorem Ordered.shifted_cohort (h : r.Ordered) (hnew : ∀ x ∈ r.members, x.id ≠ m.id)
    (hinsert : r.insert m = .ok r') (key : String) (count : Nat) :
    Shifted m (r.cohort key count) (r'.cohort key count) := by
  have h' := h.insert hinsert
  obtain ⟨before, after, hwalk, hwalk'⟩ := h.walk_insert hnew hinsert (digest key).toInt
  have hm : m ∉ before ++ after := by
    rw [← hwalk, (h.walk_perm _).mem_iff]
    exact fun hmem => hnew m hmem rfl
  rw [h.cohort_eq_take, h'.cohort_eq_take, hwalk, hwalk']
  exact shifted_take hm count

/-- The owner of a key before and after. -/
theorem Ordered.owner?_insert (h : r.Ordered) (hnew : ∀ x ∈ r.members, x.id ≠ m.id)
    (hinsert : r.insert m = .ok r') (key : String) :
    r'.owner? key = r.owner? key ∨ r'.owner? key = some m := by
  obtain ⟨before, after, hwalk, hwalk'⟩ := h.walk_insert hnew hinsert (digest key).toInt
  have howner := h.head?_walk (digest key).toInt
  have howner' := (h.insert hinsert).head?_walk (digest key).toInt
  rw [owner?, owner?, ← howner, ← howner', hwalk, hwalk']
  exact head?_append_cons before after m

/-- A member with an id of its own is taken while there is room. Then every key is owned as before
or by the new member. A cohort is found before and after exactly if there can be room for as many
members as are asked for, and then it is as before but for the new member in one place and the last
one, who may have left. -/
theorem grows_gently (h : r.Ordered) (hnew : ∀ x ∈ r.members, x.id ≠ m.id)
    (hroom : r.size < r.capacity) :
    ∃ r', r.insert m = .ok r' ∧ ∀ key,
      (r'.owner? key = r.owner? key ∨ r'.owner? key = some m) ∧
        ∀ count, (∃ cohort cohort', r.cohort? key count = some cohort ∧
          r'.cohort? key count = some cohort' ∧ cohort'.filter (· ≠ m) <+: cohort ∧
            Shifted m cohort cohort') ↔ count ≤ roomLimit := by
  obtain ⟨r', hinsert⟩ : ∃ r', r.insert m = .ok r' :=
    ⟨_, insert_eq_ok_iff.2 (.inr ⟨hnew, hroom, rfl⟩)⟩
  refine ⟨r', hinsert, fun key =>
    ⟨h.owner?_insert hnew hinsert key, fun count => ⟨?_, fun hcount => ?_⟩⟩⟩
  · rintro ⟨cohort, -, hcohort, -⟩
    exact (cohort?_eq_some_iff.1 hcohort).1
  · have hshifted := h.shifted_cohort hnew hinsert key count
    exact ⟨_, _, cohort?_eq_some_iff.2 ⟨hcount, rfl⟩, cohort?_eq_some_iff.2 ⟨hcount, rfl⟩,
      hshifted.filter_prefix, hshifted⟩

/-- A ring with room for one more, and nobody at the digest of a key. -/
def twoPlaces : Ring := ⟨3, [⟨-9223372036854775808, "a", 1⟩, ⟨9223372036854775807, "c", 3⟩]⟩

/-- Who comes to the digest of a key owns the key, and of two copies the second one moves: it was
round the end of the ring. -/
theorem grows_gently_at_digest :
    twoPlaces.Ordered ∧ (digest "iamyourfather").toInt = 610258952914415519 ∧
      (∀ x ∈ twoPlaces.members, x.id ≠ 610258952914415519) ∧ twoPlaces.size < twoPlaces.capacity ∧
      ∃ r' cohort cohort', twoPlaces.insert ⟨610258952914415519, "b", 2⟩ = .ok r' ∧
        twoPlaces.cohort? "iamyourfather" 2 = some cohort ∧ cohort.map Member.host = ["c", "a"] ∧
        r'.cohort? "iamyourfather" 2 = some cohort' ∧ cohort'.map Member.host = ["b", "c"] ∧
        Shifted ⟨610258952914415519, "b", 2⟩ cohort cohort' := by
  have hordered : twoPlaces.Ordered := by simp [twoPlaces, Ordered]
  have hnew : ∀ x ∈ twoPlaces.members, x.id ≠ 610258952914415519 := by simp [twoPlaces]
  have hroom : twoPlaces.size < twoPlaces.capacity := by decide
  obtain ⟨r', hinsert, hgrown⟩ :=
    grows_gently (m := ⟨610258952914415519, "b", 2⟩) hordered hnew hroom
  obtain ⟨cohort, cohort', hcohort, hcohort', -, hshifted⟩ :=
    ((hgrown "iamyourfather").2 2).2 (by decide)
  refine ⟨hordered, by decide +kernel, hnew, hroom, r', cohort, cohort', hinsert, hcohort, ?_,
    hcohort', ?_, hshifted⟩
  · obtain ⟨-, rfl⟩ := cohort?_eq_some_iff.1 hcohort
    decide +kernel
  · obtain rfl := Except.ok.inj hinsert
    obtain ⟨-, rfl⟩ := cohort?_eq_some_iff.1 hcohort'
    decide +kernel

/-- So many copies are asked for that there can be no room for them: nobody is found before the ring
grows, and nobody afterwards, though there are cohorts that would do. -/
theorem nobody_found_before_or_after :
    ∃ r', twoPlaces.insert ⟨610258952914415519, "b", 2⟩ = .ok r' ∧
      twoPlaces.cohort? "iamyourfather" 9223372036854775807 = none ∧
      r'.cohort? "iamyourfather" 9223372036854775807 = none ∧
      (twoPlaces.cohort "iamyourfather" 9223372036854775807).map Member.host = ["c", "a"] ∧
      (r'.cohort "iamyourfather" 9223372036854775807).map Member.host = ["b", "c", "a"] :=
  ⟨_, rfl, cohort?_eq_none_iff.2 (by decide), cohort?_eq_none_iff.2 (by decide), by decide +kernel,
    by decide +kernel⟩

end Ring

end RingStore
