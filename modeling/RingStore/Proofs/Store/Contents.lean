import RingStore.Proofs.Store.Slots

/-!
# What the files of a store hold

A store `Holds` contents if its files are chains of slots that do. Reading a key answers with its
value there (`value?_eq`), and putting or deleting a key passes through disks that hold the contents
from before or those from after (`ensures_put`, `ensures_delete`): a crash on the way does one or
the other.
-/

namespace RingStore

open Disk Disk.Attempt

/-- The contents after an operation. -/
def Operation.effect (op : Operation) (M : Store.Contents) : Store.Contents :=
  Function.update M op.key op.value?

theorem Operation.effect_effect (op : Operation) (M : Store.Contents) :
    op.effect (op.effect M) = op.effect M := by
  simp [effect, Function.update_idem]

namespace Store

variable {s : Store} {M : Contents} {d e : Disk} {bucket : Nat}
  {slots : Nat → Option StoredPair} {n : Nat} {key value : String}

/-! ## Directories that hold contents -/

/-- The slots are on the disk. -/
def Shows (s : Store) (bucket : Nat) (slots : Nat → Option StoredPair) (d : Disk) : Prop :=
  ∀ i, d.at? (s.slotPath bucket i) = (slots i).map fun e => .file (Wire.encode e)

/-- The files of the store hold the contents. -/
structure Holds (s : Store) (M : Contents) (d : Disk) : Prop where
  proper : d.Proper
  chains : ∀ bucket, ∃ slots n, Chain s M bucket slots n ∧ s.Shows bucket slots d
  short : ∀ k v, M k = some v → checkPair k v = .ok ()
  drafts : ∀ stem, d.at? (draftPath s.dir stem) ≠ some .directory

/-- A directory that is not there yet, or is empty, holds nothing. -/
theorem holds_of_vacant (h : d.Vacant s.dir) : s.Holds (fun _ => none) d where
  proper := h.proper
  chains := fun bucket => ⟨fun _ => none, 0, by constructor <;> simp, fun i => h.at?_append _⟩
  short := by simp
  drafts := fun stem => by
    have hnone : d.at? (draftPath s.dir stem) = none := h.at?_append _
    rw [hnone]
    simp

/-- A pair within the limits is read back. -/
theorem ofBytes_encode_of_checkPair (hpair : checkPair key value = .ok ()) :
    (Wire.ofBytes (Wire.encode (⟨key, value⟩ : StoredPair)) : Except CodecFault StoredPair) =
      .ok ⟨key, value⟩ := by
  obtain ⟨hkey, hvalue⟩ := checkPair_eq_ok.1 hpair
  have hkeyBound : maxKeyBytes < Nat.pow 256 8 := by decide
  have hvalueBound : maxValueBytes < Nat.pow 256 8 := by decide
  exact StoredPair.ofBytes_encode ⟨key, value⟩ (Nat.lt_of_le_of_lt hkey hkeyBound)
    (Nat.lt_of_le_of_lt hvalue hvalueBound)

theorem Shows.reads (hshows : s.Shows bucket slots d)
    (hshort : ∀ i pair, slots i = some pair → checkPair pair.key pair.value = .ok ()) :
    s.Reads bucket slots d where
  free := fun i hi => by rw [hshows i, hi, Option.map_none]
  taken := by
    intro i pair hi
    exact ⟨Wire.encode pair, by rw [hshows i, hi, Option.map_some],
      ofBytes_encode_of_checkPair (hshort i pair hi)⟩

theorem Holds.short_of_chain (h : s.Holds M d) (hc : Chain s M bucket slots n) (i : Nat)
    (e : StoredPair) (hi : slots i = some e) : checkPair e.key e.value = .ok () :=
  h.short e.key e.value (hc.sound i e hi)

/-- A store that holds its contents reads the slots of a bucket. -/
theorem Holds.reads (h : s.Holds M d) (hc : Chain s M bucket slots n)
    (hshows : s.Shows bucket slots d) : s.Reads bucket slots d :=
  hshows.reads (h.short_of_chain hc)

/-! ## Reading a key -/

/-- A key is answered with what the store holds for it. -/
theorem answers_get (h : s.Holds M d) (hdir : d.at? s.dir = some .directory)
    (hkey : checkKey key = .ok ()) :
    (s.get key).Answers d (match M key with | some v => .ok v | none => .error .noSuchKey) := by
  obtain ⟨slots, n, hc, hshows⟩ := h.chains (s.bucketOf key)
  exact answers_get_of_reads h.proper hdir hc (h.reads hc hshows) hkey

/-- The value that the store on a disk has for a key. -/
def value? (s : Store) (d : Disk) (key : String) : Option String :=
  match ((s.get key).run.run d).1 with
  | .ok value => some value
  | .error _ => none

theorem value?_of_answers {r : Except Fault String} (h : (s.get key).Answers d r) :
    s.value? d key = r.toOption := by
  have hrun : ((s.get key).run.run d).1 = r := by rw [h.2]
  unfold value?
  rw [hrun]
  cases r <;> rfl

/-- Reading the keys of a store shows its contents, also if its directory is not there yet. -/
theorem value?_eq (h : s.Holds M d) : s.value? d = M := by
  funext key
  cases hkey : checkKey key with
  | error f =>
    have hM : M key = none := by
      rw [Option.eq_none_iff_forall_ne_some]
      intro v hv
      rw [checkKey_eq_ok.2 (checkPair_eq_ok.1 (h.short key v hv)).1] at hkey
      exact absurd hkey (by simp)
    have hget : (s.get key).Answers d (.error f) := by
      unfold get
      rw [hkey]
      exact (answers_lift (.error f) d).bind_error
    rw [value?_of_answers hget, hM]
    rfl
  | ok _ =>
    by_cases hdir : d.at? s.dir = some .directory
    · rw [value?_of_answers (answers_get h hdir hkey)]
      cases M key <;> rfl
    · have hM : M key = none := by
        rw [Option.eq_none_iff_forall_ne_some]
        intro v hv
        obtain ⟨slots, n, hc, hshows⟩ := h.chains (s.bucketOf key)
        obtain ⟨i, hi⟩ := hc.complete key v rfl hv
        have hnone : d.at? (s.slotPath (s.bucketOf key) i) = none := h.proper.at?_append hdir
        rw [hshows i, hi] at hnone
        exact absurd hnone (by simp)
      have hget : (s.get key).Answers d (.error .storageUnavailable) := by
        unfold get
        rw [hkey]
        exact (answers_lift (.ok ()) d).bind (answers_requireDirectory_missing hdir).bind_error
      rw [value?_of_answers hget, hM]
      rfl

/-! ## Putting and deleting a key -/

/-- Only the chain of the key's bucket is another one. -/
theorem Holds.update (h : s.Holds M d) (he : e.Proper) {v? : Option String}
    (hc : Chain s (Function.update M key v?) (s.bucketOf key) slots n)
    (hshows : s.Shows (s.bucketOf key) slots e) (hshort : ∀ v ∈ v?, checkPair key v = .ok ())
    (hothers : ∀ bucket i, bucket ≠ s.bucketOf key →
      e.at? (s.slotPath bucket i) = d.at? (s.slotPath bucket i))
    (hdrafts : ∀ stem, e.at? (draftPath s.dir stem) ≠ some .directory) :
    s.Holds (Function.update M key v?) e where
  proper := he
  chains := by
    intro bucket
    by_cases hb : bucket = s.bucketOf key
    · exact hb ▸ ⟨slots, n, hc, hshows⟩
    · obtain ⟨slots', n', hc', hshows'⟩ := h.chains bucket
      refine ⟨slots', n', hc'.update (Ne.symm hb) v?, fun i => ?_⟩
      rw [hothers bucket i hb]
      exact hshows' i
  short := by
    intro k v hv
    by_cases hk : k = key
    · subst hk
      rw [Function.update_self] at hv
      exact hshort v hv
    · rw [Function.update_of_ne hk] at hv
      exact h.short k v hv
  drafts := hdrafts

/-- A draft changes nothing that the store holds. -/
theorem Holds.of_drafted (h : s.Holds M d) (he : e.Proper) {stem : String}
    (hdrafted : Drafted d s.dir stem e) : s.Holds M e where
  proper := he
  chains := by
    intro bucket
    obtain ⟨slots, n, hc, hshows⟩ := h.chains bucket
    refine ⟨slots, n, hc, fun i => ?_⟩
    rw [slotPath, hdrafted.at?_entryPath]
    exact hshows i
  short := h.short
  drafts := fun stem hnode => h.drafts stem (hdrafted.directory hnode)

/-- A pair in its slot is what the store holds from then on. -/
theorem Holds.of_written (h : s.Holds M d) (he : e.Proper) (hpair : checkPair key value = .ok ())
    (hc : Chain s M (s.bucketOf key) slots n) (hshows : s.Shows (s.bucketOf key) slots d) {i : Nat}
    (hfits : Chain.Fits slots n key i)
    (hwritten : Written d s.dir (slotName (s.bucketOf key) i)
      (Wire.encode (⟨key, value⟩ : StoredPair)) e) :
    s.Holds (Function.update M key (some value)) e := by
  refine h.update he (hc.put rfl hfits) ?_ (by simpa using hpair) ?_
    fun stem hnode => h.drafts stem (hwritten.directory hnode)
  · intro j
    rw [slotPath, hwritten.at?_entryPath]
    by_cases hj : j = i
    · subst hj
      rw [if_pos rfl, Function.update_self]
      rfl
    · rw [if_neg fun heq => hj (slotName_inj heq).2, Function.update_of_ne hj]
      exact hshows j
  · intro bucket j hb
    rw [slotPath, hwritten.at?_entryPath, if_neg fun heq => hb (slotName_inj heq).1]

theorem Holds.not_directory (h : s.Holds M d) (bucket i : Nat) :
    d.at? (s.slotPath bucket i) ≠ some .directory := by
  obtain ⟨slots, n, hc, hshows⟩ := h.chains bucket
  rw [hshows i]
  cases slots i <;> simp

/-- Nothing is new but files of slots. -/
def AddsSlots (s : Store) (d e : Disk) : Prop :=
  ∀ q, (e.at? q).isSome → (d.at? q).isSome ∨ ∃ bucket i, q = s.slotPath bucket i

theorem AddsSlots.of_written {i : Nat} {content : Bytes}
    (h : Written d s.dir (slotName bucket i) content e) : s.AddsSlots d e := by
  intro q hq
  rw [h] at hq
  split at hq
  · rename_i heq
    exact .inr ⟨bucket, i, heq⟩
  · split at hq
    · exact absurd hq (by simp)
    · exact .inl hq

theorem AddsSlots.of_rest (h : ∀ q, (∀ i, q ≠ s.slotPath bucket i) → e.at? q = d.at? q) :
    s.AddsSlots d e := by
  intro q hq
  by_cases hslot : ∃ i, q = s.slotPath bucket i
  · exact .inr ⟨bucket, hslot⟩
  · rw [h q fun i heq => hslot ⟨i, heq⟩] at hq
    exact .inl hq

/-- A key gets its value in one step. -/
theorem ensures_put (h : s.Holds M d) (hdir : d.at? s.dir = some .directory)
    (hpair : checkPair key value = .ok ()) :
    (s.put key value).Ensures
      (fun e => s.Holds M e ∨ s.Holds (Function.update M key (some value)) e)
      (fun r e => r = .ok () ∧ s.Holds (Function.update M key (some value)) e ∧
        s.AddsSlots d e) d := by
  obtain ⟨slots, n, hc, hshows⟩ := h.chains (s.bucketOf key)
  refine ensures_put_of_reads h.proper hdir hc (h.reads hc hshows) hpair fun i hfits => ?_
  have hafter : ∀ e, e.Proper → Written d s.dir (slotName (s.bucketOf key) i)
      (Wire.encode (⟨key, value⟩ : StoredPair)) e →
      s.Holds (Function.update M key (some value)) e :=
    fun e he hwritten => h.of_written he hpair hc hshows hfits hwritten
  refine (ensures_writeEntry _ hdir (h.drafts _) (h.not_directory _ i)).mono_proper h.proper ?_
    fun r e he _ hQ => ⟨hQ.1, hafter e he hQ.2, .of_written hQ.2⟩
  rintro e he (hdrafted | hwritten)
  · exact .inl (h.of_drafted he hdrafted)
  · exact .inr (hafter e he hwritten)

/-- The last pair of a chain comes into the slot of another. -/
theorem Shows.closed {i : Nat} (hshows : s.Shows bucket slots d)
    (hat : ∀ j, e.at? (s.slotPath bucket j) = if j = n - 1 then none
      else d.at? (s.slotPath bucket (if j = i then n - 1 else j))) :
    s.Shows bucket (Chain.closed slots (n - 1) i) e := by
  intro j
  rw [hat, Chain.closed]
  by_cases hj : j = n - 1
  · rw [if_pos hj, if_pos hj, Option.map_none]
  · rw [if_neg hj, if_neg hj, hshows]
    by_cases hji : j = i
    · rw [if_pos hji, if_pos hji]
    · rw [if_neg hji, if_neg hji]

/-- With its slot closed, a key is no longer in the store. -/
theorem Holds.of_closed (h : s.Holds M d) (he : e.Proper)
    (hc : Chain s M (s.bucketOf key) slots n) {i : Nat} {pair : StoredPair}
    (hi : slots i = some pair) (hkey : pair.key = key)
    (hshows : s.Shows (s.bucketOf key) (Chain.closed slots (n - 1) i) e)
    (hrest : ∀ q, (∀ j, q ≠ s.slotPath (s.bucketOf key) j) → e.at? q = d.at? q) :
    s.Holds (Function.update M key none) e := by
  refine h.update he (hc.delete hi hkey) hshows (by simp) ?_ fun stem => ?_
  · intro bucket j hb
    exact hrest _ fun j' heq => hb (slotPath_inj heq).1
  · rw [hrest _ fun j => Ne.symm entryPath_ne_draftPath]
    exact h.drafts stem

/-- A key that has a value goes in one step. -/
theorem ensures_delete (h : s.Holds M d) (hdir : d.at? s.dir = some .directory)
    (hkey : checkKey key = .ok ()) {v : String} (hM : M key = some v) :
    (s.delete key).Ensures (fun e => s.Holds M e ∨ s.Holds (Function.update M key none) e)
      (fun r e => r = .ok () ∧ s.Holds (Function.update M key none) e ∧ s.AddsSlots d e) d := by
  obtain ⟨slots, n, hc, hshows⟩ := h.chains (s.bucketOf key)
  have hreads := h.reads hc hshows
  refine ensures_delete_of_reads h.proper hdir hc hreads hkey hM fun i pair hi hpair => ?_
  obtain ⟨e, happly, hat, hrest⟩ := apply_closing hdir hc hreads hi
  have hafter := h.of_closed (h.proper.apply happly) hc hi hpair (hshows.closed hat) hrest
  exact ensures_change happly (.inl h) (.inr hafter) ⟨rfl, hafter, .of_rest hrest⟩

/-- A key without a value is not found. -/
theorem answers_delete_none (h : s.Holds M d) (hdir : d.at? s.dir = some .directory)
    (hkey : checkKey key = .ok ()) (hM : M key = none) :
    (s.delete key).Answers d (.error .noSuchKey) := by
  obtain ⟨slots, n, hc, hshows⟩ := h.chains (s.bucketOf key)
  exact answers_delete_of_reads h.proper hdir hc (h.reads hc hshows) hkey hM

/-! ## Limits -/

/-- A key or a pair over the limits is refused, and nothing changes. -/
theorem answers_get_refused {f : Fault} (hkey : checkKey key = .error f) :
    (s.get key).Answers d (.error f) := by
  unfold get
  rw [hkey]
  exact (answers_lift (.error f) d).bind_error

theorem answers_put_refused {f : Fault} (hpair : checkPair key value = .error f) :
    (s.put key value).Answers d (.error f) := by
  unfold put
  rw [hpair]
  exact (answers_lift (.error f) d).bind_error

theorem answers_delete_refused {f : Fault} (hkey : checkKey key = .error f) :
    (s.delete key).Answers d (.error f) := by
  unfold delete
  rw [hkey]
  exact (answers_lift (.error f) d).bind_error

/-! ## Paths outside the store -/

/-- The paths of the files of a store and of their drafts. -/
def Owns (s : Store) (q : Path) : Prop :=
  ∃ stem, q = entryPath s.dir stem ∨ q = draftPath s.dir stem

theorem dropLast_of_owns (s : Store) {q : Path} (h : s.Owns q) : q.dropLast = s.dir := by
  obtain ⟨stem, rfl | rfl⟩ := h
  · exact dropLast_entryPath
  · exact dropLast_draftPath

theorem exists_of_owns (s : Store) {q : Path} (h : s.Owns q) : ∃ name, q = s.dir ++ [name] := by
  obtain ⟨stem, rfl | rfl⟩ := h
  · exact ⟨_, rfl⟩
  · exact ⟨_, rfl⟩

/-- A disk with the same files holds the same contents. -/
theorem Holds.of_same (h : s.Holds M d) (he : e.Proper)
    (hsame : ∀ q, s.Owns q → e.at? q = d.at? q) : s.Holds M e where
  proper := he
  chains := by
    intro bucket
    obtain ⟨slots, n, hc, hshows⟩ := h.chains bucket
    refine ⟨slots, n, hc, fun i => ?_⟩
    rw [slotPath, hsame _ ⟨_, .inl rfl⟩]
    exact hshows i
  short := h.short
  drafts := by
    intro stem
    rw [hsame _ ⟨_, .inr rfl⟩]
    exact h.drafts stem

theorem within_lift {α : Type} {P : Path → Prop} (r : Except Fault α) :
    (liftM r : Attempt α).Within P := trivial

theorem within_requireDirectory {P : Path → Prop} (s : Store) : s.requireDirectory.Within P := by
  refine Within.bind (fun _ => trivial) fun a => ?_
  cases a
  · exact trivial
  · exact trivial

theorem within_readSlot {P : Path → Prop} (s : Store) (bucket slot : Nat) :
    (s.readSlot bucket slot).Within P := by
  refine Within.bind (fun _ => trivial) fun o => ?_
  cases o with
  | none => exact trivial
  | some content => exact Within.bind (within_lift _) fun _ => trivial

theorem within_seek {P : Path → Prop} (s : Store) (key : String) (bucket steps slot : Nat) :
    (s.seek key bucket steps slot).Within P := by
  induction steps generalizing slot with
  | zero => exact trivial
  | succ steps ih =>
    refine Within.bind (s.within_readSlot bucket slot) fun o => ?_
    cases o with
    | none => exact trivial
    | some e =>
      show (if e.key = key then pure (slot, some e)
        else s.seek key bucket steps (slot + 1)).Within P
      split
      · exact trivial
      · exact ih (slot + 1)

theorem within_lastFrom {P : Path → Prop} (s : Store) (bucket steps slot : Nat) :
    (s.lastFrom bucket steps slot).Within P := by
  induction steps generalizing slot with
  | zero => exact trivial
  | succ steps ih =>
    refine Within.bind (fun _ => trivial) fun a => ?_
    cases a
    · exact trivial
    · exact ih (slot + 1)

theorem within_locate {P : Path → Prop} (s : Store) (key : String) : (s.locate key).Within P :=
  Within.bind (fun _ => trivial) fun _ => within_seek ..

/-- Putting a key touches files of the store only. -/
theorem within_put (s : Store) (key value : String) : (s.put key value).Within s.Owns := by
  refine Within.bind (within_lift _) fun _ => Within.bind (within_requireDirectory s) fun _ =>
    Within.bind (within_locate s key) fun r => within_writeEntry.mono ?_
  rintro q (rfl | rfl)
  · exact ⟨_, .inr rfl⟩
  · exact ⟨_, .inl rfl⟩

/-- Deleting a key touches files of the store only. -/
theorem within_delete (s : Store) (key : String) : (s.delete key).Within s.Owns := by
  refine Within.bind (within_lift _) fun _ => Within.bind (within_requireDirectory s) fun _ =>
    Within.bind (within_locate s key) fun r => ?_
  obtain ⟨slot, o⟩ := r
  cases o with
  | none => exact trivial
  | some e =>
    refine Within.bind (fun _ => trivial) fun entries =>
      Within.bind (within_lastFrom ..) fun last => ?_
    show (if last = slot then Attempt.change (.unlink (s.slotPath (s.bucketOf key) slot)) else
      Attempt.change (.rename (s.slotPath (s.bucketOf key) last)
        (s.slotPath (s.bucketOf key) slot))).Within s.Owns
    split
    · refine ⟨?_, fun _ => trivial⟩
      rintro q rfl
      exact ⟨_, .inl rfl⟩
    · refine ⟨?_, fun _ => trivial⟩
      rintro q (rfl | rfl)
      · exact ⟨_, .inl rfl⟩
      · exact ⟨_, .inl rfl⟩

end Store

end RingStore
