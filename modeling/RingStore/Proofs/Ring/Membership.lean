import RingStore.Proofs.Ring.Cohort

/-!
# Members come and stay

Members are put on a ring by calls, any number of them and in any order: known and new places, free
ones and places that another member has, and calls that are refused. The ring only grows
(`Ring.Extends`), never beyond its capacity, and a ring that is full is what it will be for good.
-/

namespace RingStore

namespace Ring

variable {r r' r'' : Ring} {m x : Member} {capacity : Nat}

/-! ## Putting a member on the ring -/

/-- A ring that takes a member had one in that place already, or has room and gets no other. -/
theorem insert_eq_ok_iff : r.insert m = .ok r' ↔
    (∃ x ∈ r.members, x.id = m.id) ∧ r' = r ∨
      (∀ x ∈ r.members, x.id ≠ m.id) ∧ r.size < r.capacity ∧
        r' = { r with
          members := r.members.filter (·.id < m.id) ++ m :: r.members.filter (m.id < ·.id) } := by
  unfold Ring.insert
  by_cases hknown : ∃ x ∈ r.members, x.id = m.id
  · have hany : r.members.any (·.id == m.id) = true := by simpa using hknown
    have hnot : ¬ ∀ x ∈ r.members, x.id ≠ m.id := fun hnew =>
      hknown.elim fun x hx => hnew x hx.1 hx.2
    rw [if_pos hany, Except.ok.injEq]
    exact ⟨fun h => .inl ⟨hknown, h.symm⟩, fun h => (h.resolve_right fun h => hnot h.1).2.symm⟩
  · have hany : ¬ r.members.any (·.id == m.id) = true := by simpa using hknown
    have hnew : ∀ x ∈ r.members, x.id ≠ m.id := fun x hx hid => hknown ⟨x, hx, hid⟩
    rw [if_neg hany]
    by_cases hfull : r.capacity ≤ r.size
    · rw [if_pos hfull]
      refine ⟨fun h => (nomatch h), ?_⟩
      rintro (⟨h, -⟩ | ⟨-, hroom, -⟩)
      · exact absurd h hknown
      · exact absurd hfull (Nat.not_le_of_lt hroom)
    · rw [if_neg hfull, Except.ok.injEq]
      exact ⟨fun h => .inr ⟨hnew, Nat.lt_of_not_le hfull, h.symm⟩,
        fun h => (h.resolve_left fun h => hknown h.1).2.2.symm⟩

/-- A ring refuses a member only if its place is new and there is no room. -/
theorem insert_eq_error_iff : (∃ f, r.insert m = .error f) ↔
    (∀ x ∈ r.members, x.id ≠ m.id) ∧ r.capacity ≤ r.size := by
  constructor
  · rintro ⟨f, hf⟩
    have hnone : ∀ r', r.insert m ≠ .ok r' := by simp [hf]
    have hnew : ∀ x ∈ r.members, x.id ≠ m.id := fun x hx hid =>
      hnone r (insert_eq_ok_iff.2 (.inl ⟨⟨x, hx, hid⟩, rfl⟩))
    refine ⟨hnew, Nat.le_of_not_lt fun hroom => ?_⟩
    exact hnone _ (insert_eq_ok_iff.2 (.inr ⟨hnew, hroom, rfl⟩))
  · rintro ⟨hnew, hfull⟩
    cases hinsert : r.insert m with
    | error f => exact ⟨f, rfl⟩
    | ok r' =>
      rcases insert_eq_ok_iff.1 hinsert with ⟨⟨x, hx, hid⟩, -⟩ | ⟨-, hroom, -⟩
      · exact absurd hid (hnew x hx)
      · exact absurd hfull (Nat.not_le_of_lt hroom)

/-- A member in a place of its own joins all others. -/
theorem members_insert_perm (hnew : ∀ x ∈ r.members, x.id ≠ m.id) :
    (r.members.filter (·.id < m.id) ++ m :: r.members.filter (m.id < ·.id)).Perm
      (m :: r.members) := by
  have habove :
      r.members.filter (m.id < ·.id) = r.members.filter (fun x => !decide (x.id < m.id)) := by
    refine List.filter_congr fun x hx => ?_
    have hne := hnew x hx
    by_cases hlt : x.id < m.id
    · simp [hlt, Int.le_of_lt hlt]
    · have hgt : m.id < x.id := by omega
      simp [hlt, hgt]
  rw [habove]
  exact List.perm_middle.trans ((List.filter_append_perm _ _).cons m)

/-- What is on a ring that took a member: everyone from before, and the member or one in its
place. -/
theorem mem_insert_iff (hinsert : r.insert m = .ok r') {x : Member} :
    x ∈ r'.members ↔ x ∈ r.members ∨ x = m ∧ ∀ y ∈ r.members, y.id ≠ m.id := by
  rcases insert_eq_ok_iff.1 hinsert with ⟨⟨y, hy, hid⟩, rfl⟩ | ⟨hnew, -, rfl⟩
  · refine ⟨.inl, ?_⟩
    rintro (hx | ⟨-, hnew⟩)
    · exact hx
    · exact absurd hid (hnew y hy)
  · rw [(members_insert_perm hnew).mem_iff, List.mem_cons]
    exact ⟨fun h => h.symm.imp_right fun h => ⟨h, hnew⟩, fun h => (h.imp_right And.left).symm⟩

/-- A full ring has as many members as it takes. -/
theorem size_of_isFull (hfull : r.isFull = true) : r.size = r.capacity := by
  simpa [isFull] using hfull

/-- A full ring takes no further member. -/
theorem insert_of_isFull (hfull : r.isFull = true) (hinsert : r.insert m = .ok r') : r' = r := by
  have hsize := size_of_isFull hfull
  rcases insert_eq_ok_iff.1 hinsert with ⟨-, heq⟩ | ⟨-, hroom, -⟩
  · exact heq
  · omega

theorem Ordered.nodup_ids (h : r.Ordered) : (r.members.map Member.id).Nodup :=
  (List.pairwise_map.2 h).imp fun hlt => Int.ne_of_lt hlt

/-- There is one member in a place. -/
theorem Ordered.eq_of_id (h : r.Ordered) (hm : m ∈ r.members) (hx : x ∈ r.members)
    (hid : m.id = x.id) : m = x :=
  List.inj_on_of_nodup_map h.nodup_ids hm hx hid

/-! ## Growing rings -/

/-- A ring that came out of another one: everyone is still there, and one that was full is the
same. -/
structure Extends (r r' : Ring) : Prop where
  capacity : r'.capacity = r.capacity
  members : ∀ x ∈ r.members, x ∈ r'.members
  frozen : r.isFull = true → r' = r

theorem Extends.refl (r : Ring) : r.Extends r := ⟨rfl, fun _ hx => hx, fun _ => rfl⟩

theorem Extends.trans (h : r.Extends r') (h' : r'.Extends r'') : r.Extends r'' := by
  refine ⟨h'.capacity.trans h.capacity, fun x hx => h'.members x (h.members x hx), fun hfull => ?_⟩
  have heq := h.frozen hfull
  subst heq
  exact h'.frozen hfull

/-- An insertion takes no member away. -/
theorem extends_insert (hinsert : r.insert m = .ok r') : r.Extends r' where
  capacity := capacity_insert hinsert
  members _ hx := (mem_insert_iff hinsert).2 (.inl hx)
  frozen hfull := insert_of_isFull hfull hinsert

/-- A ring never has more members than it was made for. -/
theorem Built.size_le (h : r.Built capacity) : r.size ≤ capacity := by
  induction h with
  | create => exact Nat.zero_le _
  | @insert r r' m h hinsert ih =>
    rcases insert_eq_ok_iff.1 hinsert with ⟨-, rfl⟩ | ⟨hnew, hroom, rfl⟩
    · exact ih
    · have hlength := (members_insert_perm hnew).length_eq
      rw [h.capacity_eq] at hroom
      rw [size, hlength, List.length_cons]
      exact hroom

/-! ## Calls -/

/-- A call that is to put a member on a ring. -/
inductive Call
  /-- The replica at an address is announced. -/
  | register (host : String) (port : UInt16)
  /-- A member is handed over. -/
  | insert (m : Member)

/-- The member that a call is about. -/
def Call.member : Call → Member
  | register host port => .atAddress host port
  | insert m => m

/-- What a call comes to. -/
def attempt (r : Ring) : Call → Except Fault Ring
  | .register host port => r.register host port
  | .insert m => r.insert m

/-- A registration is an insertion at the place that the address gives. -/
theorem attempt_eq (r : Ring) (call : Call) : r.attempt call = r.insert call.member := by
  cases call <;> rfl

/-- The ring after a call. One that fails leaves nothing behind. -/
def after (r : Ring) (call : Call) : Ring :=
  match r.attempt call with
  | .ok r' => r'
  | .error _ => r

/-- The ring after one call and the next. -/
def afterAll (r : Ring) (calls : List Call) : Ring := calls.foldl after r

theorem after_of_ok {call : Call} (h : r.attempt call = .ok r') : r.after call = r' := by
  rw [after, h]

theorem after_of_error {call : Call} {f : Fault} (h : r.attempt call = .error f) :
    r.after call = r := by
  rw [after, h]

theorem afterAll_append (r : Ring) (calls more : List Call) :
    r.afterAll (calls ++ more) = (r.afterAll calls).afterAll more :=
  List.foldl_append

/-- No call takes a member away. -/
theorem extends_after (r : Ring) (call : Call) : r.Extends (r.after call) := by
  cases h : r.attempt call with
  | ok r' =>
    rw [after_of_ok h]
    rw [attempt_eq] at h
    exact extends_insert h
  | error f =>
    rw [after_of_error h]
    exact .refl r

/-- No calls take a member away. -/
theorem extends_afterAll (r : Ring) (calls : List Call) : r.Extends (r.afterAll calls) := by
  induction calls generalizing r with
  | nil => exact .refl r
  | cons call calls ih => exact (extends_after r call).trans (ih _)

theorem Ordered.after (h : r.Ordered) (call : Call) : (r.after call).Ordered := by
  cases hattempt : r.attempt call with
  | ok r' =>
    rw [after_of_ok hattempt]
    rw [attempt_eq] at hattempt
    exact h.insert hattempt
  | error f => rwa [after_of_error hattempt]

/-- Whatever is called, the members stay in the order of their ids. -/
theorem Ordered.afterAll (h : r.Ordered) (calls : List Call) : (r.afterAll calls).Ordered := by
  induction calls generalizing r with
  | nil => exact h
  | cons call calls ih => exact ih (h.after call)

theorem Built.after (h : r.Built capacity) (call : Call) : (r.after call).Built capacity := by
  cases hattempt : r.attempt call with
  | ok r' =>
    rw [after_of_ok hattempt]
    rw [attempt_eq] at hattempt
    exact h.insert hattempt
  | error f => rwa [after_of_error hattempt]

/-- A ring that calls have led on was built by insertions. -/
theorem Built.afterAll (h : r.Built capacity) (calls : List Call) :
    (r.afterAll calls).Built capacity := by
  induction calls generalizing r with
  | nil => exact h
  | cons call calls ih => exact ih (h.after call)

/-- What is sure of a ring of so many places, whatever calls are made on it. A call fails exactly if
it brings a new place to a full ring. -/
structure Steady (capacity : Nat) (r : Ring) : Prop where
  ordered : r.Ordered
  bounded : r.size ≤ capacity
  fails_iff : ∀ call, (∃ f, r.attempt call = .error f) ↔
    r.isFull = true ∧ ∀ x ∈ r.members, x.id ≠ call.member.id
  refused : ∀ call f, r.attempt call = .error f → r.after call = r
  accepted : ∀ call r', r.attempt call = .ok r' → r.after call = r' ∧
    ∀ x, x ∈ r'.members ↔ x ∈ r.members ∨ x = call.member ∧ ∀ y ∈ r.members, y.id ≠ call.member.id
  kept : ∀ calls, ∀ x ∈ r.members, x ∈ (r.afterAll calls).members ∧
    ∀ y ∈ (r.afterAll calls).members, y.id = x.id → y = x
  frozen : r.isFull = true → ∀ calls, r.afterAll calls = r

theorem Built.steady (h : r.Built capacity) : r.Steady capacity where
  ordered := h.ordered
  bounded := h.size_le
  fails_iff call := by
    have hfull : r.isFull = true ↔ r.capacity ≤ r.size := by
      have hsize := h.size_le
      have hcapacity := h.capacity_eq
      rw [isFull, beq_iff_eq]
      omega
    rw [attempt_eq, insert_eq_error_iff, hfull, and_comm]
  refused _ _ hattempt := after_of_error hattempt
  accepted call r' hattempt := by
    refine ⟨after_of_ok hattempt, fun x => ?_⟩
    rw [attempt_eq] at hattempt
    exact mem_insert_iff hattempt
  kept calls x hx := by
    have hstill := (extends_afterAll r calls).members x hx
    refine ⟨hstill, fun y hy hid => ?_⟩
    exact (h.afterAll calls).ordered.eq_of_id hy hstill hid
  frozen hfull calls := (extends_afterAll r calls).frozen hfull

end Ring

end RingStore
