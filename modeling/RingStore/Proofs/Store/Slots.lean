import RingStore.Proofs.Store.Chain

/-!
# What a store reads in its slots

A store `Reads` pairs in the slots of a bucket if the files there are read as these pairs. If they
form a chain, a walk along it finds the slot of a key or the first free one (`answers_locate`), the
value of a key is read (`answers_get_of_reads`), the last slot is found (`answers_lastFrom`), and
one change takes a pair away (`apply_closing`).
-/

namespace RingStore

open Disk Disk.Attempt

namespace Store

variable {s : Store} {M : Contents} {d e : Disk} {bucket : Nat}
  {slots : Nat → Option StoredPair} {n : Nat} {key value : String}

/-! ## The names of slots -/

theorem slotName_inj {bucket' slot slot' : Nat}
    (h : slotName bucket slot = slotName bucket' slot') :
    bucket = bucket' ∧ slot = slot' := by
  have hlist :
      ∀ b i : Nat, (slotName b i).toList = Nat.toDigits 10 b ++ '-' :: Nat.toDigits 10 i := by
    intro b i
    have hb : (toString b).toList = Nat.toDigits 10 b := Nat.toList_repr
    have hi : (toString i).toList = Nat.toDigits 10 i := Nat.toList_repr
    show (toString b ++ toString "-" ++ toString i).toList = _
    rw [String.toList_append, String.toList_append, hb, hi]
    simp [toString]
  have hdash : ∀ n, '-' ∉ Nat.toDigits 10 n := by
    intro n hmem
    exact absurd (Nat.isDigit_of_mem_toDigits (by omega) (by omega) hmem) (by decide)
  have hinj : ∀ {m n : Nat}, Nat.toDigits 10 m = Nat.toDigits 10 n → m = n := by
    intro m n heq
    rw [← Nat.ofDigitChars_ten_toDigits (n := m), heq, Nat.ofDigitChars_ten_toDigits]
  have heq := congrArg String.toList h
  rw [hlist, hlist, List.append_cons_inj_of_notMem (hdash _) (hdash _)] at heq
  exact ⟨hinj heq.1, hinj heq.2.2⟩

theorem slotPath_inj {bucket' slot slot' : Nat}
    (h : s.slotPath bucket slot = s.slotPath bucket' slot') : bucket = bucket' ∧ slot = slot' :=
  slotName_inj (entryPath_inj h)

theorem slotPath_ne_nil (s : Store) (bucket slot : Nat) : s.slotPath bucket slot ≠ [] :=
  entryPath_ne_nil

/-! ## Slots that are read -/

/-- The slots of a bucket are read as these pairs. -/
structure Reads (s : Store) (bucket : Nat) (slots : Nat → Option StoredPair) (d : Disk) : Prop where
  free : ∀ i, slots i = none → d.at? (s.slotPath bucket i) = none
  taken : ∀ i pair, slots i = some pair → ∃ content,
    d.at? (s.slotPath bucket i) = some (.file content) ∧
      (Wire.ofBytes content : Except CodecFault StoredPair) = .ok pair

namespace Reads

theorem isSome_at? (h : s.Reads bucket slots d) (i : Nat) :
    (d.at? (s.slotPath bucket i)).isSome ↔ (slots i).isSome := by
  cases hslot : slots i with
  | none => simp [h.free i hslot]
  | some pair =>
    obtain ⟨content, hfile, -⟩ := h.taken i pair hslot
    simp [hfile]

theorem not_directory (h : s.Reads bucket slots d) (i : Nat) :
    d.at? (s.slotPath bucket i) ≠ some .directory := by
  cases hslot : slots i with
  | none => simp [h.free i hslot]
  | some pair =>
    obtain ⟨content, hfile, -⟩ := h.taken i pair hslot
    simp [hfile]

/-- What a slot holds is read back. -/
theorem answers_readSlot (h : s.Reads bucket slots d) (hd : d.Proper)
    (hdir : d.at? s.dir = some .directory) (i : Nat) :
    (s.readSlot bucket i).Answers d (.ok (slots i)) := by
  cases hslot : slots i with
  | none =>
    refine (answers_read?_none hd (by rw [slotPath, dropLast_entryPath, hdir])
      (h.free i hslot)).bind ?_
    exact answers_pure none d
  | some pair =>
    obtain ⟨content, hfile, hpair⟩ := h.taken i pair hslot
    refine (answers_read?_file hfile).bind ?_
    simp only [hpair]
    exact (answers_lift (.ok pair) d).bind (answers_pure (some pair) d)

end Reads

/-- What a walk along a chain finds: the slot of the key, or the first free slot. -/
def Found (slots : Nat → Option StoredPair) (n : Nat) (key : String) :
    Nat × Option StoredPair → Prop
  | (i, some e) => slots i = some e ∧ e.key = key
  | (i, none) => i = n ∧ ∀ j e, slots j = some e → e.key ≠ key

theorem Found.fits {r : Nat × Option StoredPair} (h : Found slots n key r) :
    Chain.Fits slots n key r.1 := by
  obtain ⟨i, o⟩ := r
  cases o with
  | none => exact .inr h
  | some e => exact .inl ⟨e, h⟩

/-- A walk along a chain that may go on to its end finds what it seeks. -/
theorem answers_seek (key : String) (h : Chain s M bucket slots n) (hd : d.Proper)
    (hdir : d.at? s.dir = some .directory) (hreads : s.Reads bucket slots d)
    (steps slot : Nat)
    (hle : slot ≤ n) (hlt : n < slot + steps)
    (hbefore : ∀ j e, j < slot → slots j = some e → e.key ≠ key) :
    ∃ r, (s.seek key bucket steps slot).Answers d (.ok r) ∧ Found slots n key r := by
  induction steps generalizing slot with
  | zero => omega
  | succ steps ih =>
    have hread := hreads.answers_readSlot hd hdir slot
    cases hslot : slots slot with
    | none =>
      rw [hslot] at hread
      have hend : slot = n := by
        have htaken := h.taken slot
        rw [hslot] at htaken
        simp only [Option.isSome_none, Bool.false_eq_true, false_iff] at htaken
        omega
      refine ⟨(slot, none), hread.bind (answers_pure _ d), hend, fun j e hj => ?_⟩
      exact hbefore j e (hend ▸ h.lt_of_eq_some hj) hj
    | some e =>
      rw [hslot] at hread
      by_cases hkey : e.key = key
      · refine ⟨(slot, some e), hread.bind ?_, hslot, hkey⟩
        simp only [hkey, if_true]
        exact answers_pure _ d
      · have hnext : slot + 1 ≤ n := h.lt_of_eq_some hslot
        obtain ⟨r, hr, hfound⟩ := ih (slot + 1) hnext (by omega) (by
          intro j e' hj hj'
          by_cases hjs : j = slot
          · rw [hjs, hslot, Option.some.injEq] at hj'
            rwa [← hj']
          · exact hbefore j e' (by omega) hj')
        refine ⟨r, hread.bind ?_, hfound⟩
        simp only [hkey, if_false]
        exact hr

/-- There are not more files in slots from one on than names in the directory. -/
theorem le_length_names_of_taken (s : Store) (bucket first : Nat)
    (htaken : ∀ i < n, (d.at? (s.slotPath bucket (first + i))).isSome) :
    n ≤ (d.names s.dir).length := by
  refine Disk.le_length_names
    (fun i => s!"{slotName bucket (first + i)}.{entryExtension}") ?_ htaken
  intro i j hij
  have hpath : entryPath [] (slotName bucket (first + i)) =
      entryPath [] (slotName bucket (first + j)) := congrArg (fun name => [name]) hij
  exact Nat.add_left_cancel (slotName_inj (entryPath_inj hpath)).2

theorem Reads.le_length_names (h : s.Reads bucket slots d) (htaken : ∀ i < n, (slots i).isSome) :
    n ≤ (d.names s.dir).length := by
  refine le_length_names_of_taken s bucket 0 fun i hi => ?_
  rw [Nat.zero_add]
  exact (h.isSome_at? i).2 (htaken i hi)

theorem answers_locate (hd : d.Proper) (hdir : d.at? s.dir = some .directory)
    (hc : Chain s M (s.bucketOf key) slots n) (hreads : s.Reads (s.bucketOf key) slots d) :
    ∃ r, (s.locate key).Answers d (.ok r) ∧ Found slots n key r := by
  have hle := hreads.le_length_names fun i hi => (hc.taken i).2 hi
  obtain ⟨r, hr, hfound⟩ := answers_seek key hc hd hdir hreads ((d.names s.dir).length + 1) 0
    (by omega) (by omega) (by omega)
  exact ⟨r, (answers_count s.dir d).bind hr, hfound⟩

/-! ## Reading a key -/

theorem answers_requireDirectory (hdir : d.at? s.dir = some .directory) :
    s.requireDirectory.Answers d (.ok ()) := by
  refine (answers_isDirectory s.dir d).bind ?_
  rw [hdir]
  exact answers_pure () d

/-- Without its directory the store does nothing. -/
theorem answers_requireDirectory_missing (hdir : d.at? s.dir ≠ some .directory) :
    s.requireDirectory.Answers d (.error .storageUnavailable) := by
  refine (answers_isDirectory s.dir d).bind ?_
  rw [beq_false_of_ne hdir]
  exact answers_throw .storageUnavailable d

theorem exists_answers_missing {α : Type} (hdir : d.at? s.dir ≠ some .directory)
    (check : Except Fault Unit) (x : Attempt α) :
    ∃ f, (do check; s.requireDirectory; x : Attempt α).Answers d (.error f) := by
  cases check with
  | error f => exact ⟨f, (answers_lift (.error f) d).bind_error⟩
  | ok _ => exact ⟨.storageUnavailable,
      (answers_lift (.ok ()) d).bind (answers_requireDirectory_missing hdir).bind_error⟩

theorem answers_get_of_reads (hd : d.Proper) (hdir : d.at? s.dir = some .directory)
    (hc : Chain s M (s.bucketOf key) slots n) (hreads : s.Reads (s.bucketOf key) slots d)
    (hkey : checkKey key = .ok ()) :
    (s.get key).Answers d (match M key with | some v => .ok v | none => .error .noSuchKey) := by
  obtain ⟨⟨i, o⟩, hr, hfound⟩ := answers_locate hd hdir hc hreads
  unfold get
  rw [hkey]
  refine (answers_lift (.ok ()) d).bind ((answers_requireDirectory hdir).bind (hr.bind ?_))
  cases o with
  | some e =>
    obtain ⟨hi, rfl⟩ := hfound
    rw [hc.sound i e hi]
    exact answers_pure e.value d
  | none =>
    obtain ⟨-, hfree⟩ := hfound
    have hM : M key = none := by
      rw [Option.eq_none_iff_forall_ne_some]
      intro v hv
      obtain ⟨j, hj⟩ := hc.complete key v rfl hv
      exact hfree j _ hj rfl
    rw [hM]
    exact answers_throw .noSuchKey d

/-! ## Putting and deleting a key -/

/-- Putting a pair is writing it to the slot where it fits. -/
theorem ensures_put_of_reads {C : Disk → Prop} {Q : Except Fault Unit → Disk → Prop} (hd : d.Proper)
    (hdir : d.at? s.dir = some .directory) (hc : Chain s M (s.bucketOf key) slots n)
    (hreads : s.Reads (s.bucketOf key) slots d) (hpair : checkPair key value = .ok ())
    (hwrite : ∀ i, Chain.Fits slots n key i → (writeEntry s.dir (slotName (s.bucketOf key) i)
      (Wire.encode (⟨key, value⟩ : StoredPair))).Ensures C Q d) :
    (s.put key value).Ensures C Q d := by
  obtain ⟨⟨i, o⟩, hr, hfound⟩ := answers_locate hd hdir hc hreads
  unfold put
  rw [hpair]
  exact (answers_lift (.ok ()) d).ensures_bind ((answers_requireDirectory hdir).ensures_bind
    (hr.ensures_bind (hwrite i hfound.fits)))

/-- The last slot before a free one is found. -/
theorem answers_lastFrom {last : Nat} (hfree : d.at? (s.slotPath bucket (last + 1)) = none)
    (steps slot : Nat) (htaken : ∀ i, slot < i → i ≤ last → (d.at? (s.slotPath bucket i)).isSome)
    (hle : slot ≤ last) (hsteps : last ≤ slot + steps) :
    (s.lastFrom bucket steps slot).Answers d (.ok last) := by
  induction steps generalizing slot with
  | zero =>
    obtain rfl : last = slot := by omega
    exact answers_pure _ d
  | succ steps ih =>
    refine (answers_exists? _ d).bind ?_
    by_cases hnext : slot < last
    · rw [htaken (slot + 1) (by omega) hnext]
      exact ih (slot + 1) (fun i hi => htaken i (by omega)) hnext (by omega)
    · obtain rfl : last = slot := by omega
      rw [hfree]
      exact answers_pure _ d

/-- The last slot of a chain is found. -/
theorem answers_lastFrom_of_reads (hc : Chain s M bucket slots n) (hreads : s.Reads bucket slots d)
    {slot : Nat} (hlt : slot < n) :
    (s.lastFrom bucket (d.names s.dir).length slot).Answers d (.ok (n - 1)) := by
  have hle := hreads.le_length_names fun i hi => (hc.taken i).2 hi
  refine answers_lastFrom ?_ _ slot (fun i _ hi => ?_) (by omega) (by omega)
  · have hfree := (hc.taken (n - 1 + 1)).not.2 (by omega)
    exact hreads.free _ (Option.not_isSome_iff_eq_none.1 hfree)
  · exact (hreads.isSome_at? i).2 ((hc.taken i).2 (by omega))

/-- The change that takes a pair away: the last pair of the chain comes into its slot. -/
def closing (s : Store) (bucket last slot : Nat) : Change :=
  if last = slot then .unlink (s.slotPath bucket slot)
  else .rename (s.slotPath bucket last) (s.slotPath bucket slot)

/-- Deleting a key that is there is taking its pair away. -/
theorem ensures_delete_of_reads {C : Disk → Prop} {Q : Except Fault Unit → Disk → Prop}
    (hd : d.Proper) (hdir : d.at? s.dir = some .directory)
    (hc : Chain s M (s.bucketOf key) slots n) (hreads : s.Reads (s.bucketOf key) slots d)
    (hkey : checkKey key = .ok ()) {v : String} (hM : M key = some v)
    (hclose : ∀ i pair, slots i = some pair → pair.key = key →
      (Attempt.change (s.closing (s.bucketOf key) (n - 1) i)).Ensures C Q d) :
    (s.delete key).Ensures C Q d := by
  obtain ⟨⟨i, o⟩, hr, hfound⟩ := answers_locate hd hdir hc hreads
  cases o with
  | none =>
    obtain ⟨j, hj⟩ := hc.complete key v rfl hM
    exact absurd rfl (hfound.2 j _ hj)
  | some pair =>
    obtain ⟨hi, hpair⟩ := hfound
    unfold delete
    rw [hkey]
    refine (answers_lift (.ok ()) d).ensures_bind ((answers_requireDirectory hdir).ensures_bind
      (hr.ensures_bind ((answers_count s.dir d).ensures_bind
        ((answers_lastFrom_of_reads hc hreads (hc.lt_of_eq_some hi)).ensures_bind ?_))))
    -- whether or not the pair is the last of its chain, one change takes it away
    have hchange : (if n - 1 = i then Attempt.change (.unlink (s.slotPath (s.bucketOf key) i))
        else Attempt.change (.rename (s.slotPath (s.bucketOf key) (n - 1))
          (s.slotPath (s.bucketOf key) i))) =
        Attempt.change (s.closing (s.bucketOf key) (n - 1) i) := by
      unfold closing
      split <;> rfl
    rw [hchange]
    exact hclose i pair hi hpair

/-- A key without a value is not found. -/
theorem answers_delete_of_reads (hd : d.Proper) (hdir : d.at? s.dir = some .directory)
    (hc : Chain s M (s.bucketOf key) slots n) (hreads : s.Reads (s.bucketOf key) slots d)
    (hkey : checkKey key = .ok ()) (hM : M key = none) :
    (s.delete key).Answers d (.error .noSuchKey) := by
  obtain ⟨⟨i, o⟩, hr, hfound⟩ := answers_locate hd hdir hc hreads
  cases o with
  | some pair => exact absurd hfound.2 (hc.ne_key_of_none hM hfound.1)
  | none =>
    unfold delete
    rw [hkey]
    exact (answers_lift (.ok ()) d).bind ((answers_requireDirectory hdir).bind
      (hr.bind (answers_throw .noSuchKey d)))

/-- Afterwards the last pair of the chain is in the slot, and the last slot is free. -/
theorem apply_closing (hdir : d.at? s.dir = some .directory) (hc : Chain s M bucket slots n)
    (hreads : s.Reads bucket slots d) {i : Nat} {pair : StoredPair} (hi : slots i = some pair) :
    ∃ e, d.apply (s.closing bucket (n - 1) i) = .ok e ∧
      (∀ j, e.at? (s.slotPath bucket j) = if j = n - 1 then none
        else d.at? (s.slotPath bucket (if j = i then n - 1 else j))) ∧
      ∀ q, (∀ j, q ≠ s.slotPath bucket j) → e.at? q = d.at? q := by
  have hlt := hc.lt_of_eq_some hi
  obtain ⟨pair', hlast⟩ := Option.isSome_iff_exists.1 ((hc.taken (n - 1)).2 (by omega))
  obtain ⟨content, hnode, -⟩ := hreads.taken (n - 1) pair' hlast
  have hinj : ∀ j j', s.slotPath bucket j = s.slotPath bucket j' ↔ j = j' :=
    fun j j' => ⟨fun heq => (slotPath_inj heq).2, fun heq => heq ▸ rfl⟩
  unfold closing
  by_cases hend : n - 1 = i
  · subst hend
    rw [if_pos rfl]
    refine ⟨_, apply_unlink hnode, fun j => ?_, fun q hq => ?_⟩
    · rw [at?_erase (slotPath_ne_nil _ _ _)]
      by_cases hj : j = n - 1
      · rw [if_pos ((hinj _ _).2 hj), if_pos hj]
      · rw [if_neg ((hinj _ _).not.2 hj), if_neg hj, if_neg hj]
    · rw [at?_erase (slotPath_ne_nil _ _ _), if_neg (hq _)]
  · rw [if_neg hend]
    refine ⟨_, apply_rename hnode (hreads.not_directory i)
      (by rw [slotPath, dropLast_entryPath, hdir]), fun j => ?_, fun q hq => ?_⟩
    · rw [at?_rename (slotPath_ne_nil _ _ _) (slotPath_ne_nil _ _ _)]
      by_cases hji : j = i
      · rw [if_pos ((hinj _ _).2 hji), if_neg (by omega), if_pos hji, hnode]
      · rw [if_neg ((hinj _ _).not.2 hji), if_neg hji]
        by_cases hj : j = n - 1
        · rw [if_pos ((hinj _ _).2 hj), if_pos hj]
        · rw [if_neg ((hinj _ _).not.2 hj), if_neg hj]
    · rw [at?_rename (slotPath_ne_nil _ _ _) (slotPath_ne_nil _ _ _), if_neg (hq _), if_neg (hq _)]

end Store

end RingStore
