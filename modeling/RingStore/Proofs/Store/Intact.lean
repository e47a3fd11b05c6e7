import RingStore.Proofs.Store.Failing
import RingStore.Proofs.Store.FiniteMap

/-!
# Intact chains

The chains of a store are `Intact` if the files of each bucket are read as pairs, in slots without a
gap, each pair in the bucket of its key and no key in two slots. Then the store serves the contents
that the chains hold, and no others (`Filled.serves`). Nothing is said of drafts or of how long a
pair may be. Putting and deleting a key either end with a fault or fill the store with what they are
to (`Filled.run_update`).
-/

namespace RingStore

open Disk Disk.Attempt

namespace Store

variable {s : Store} {M : Contents} {d e : Disk} {bucket n : Nat}
  {slots : Nat → Option StoredPair} {key value : String}

/-- The first `length` slots of a bucket are taken, by keys of the bucket, each in one slot only. -/
structure Linked (s : Store) (bucket : Nat) (slots : Nat → Option StoredPair) (length : Nat) :
    Prop where
  taken : ∀ i, (slots i).isSome ↔ i < length
  placed : ∀ i pair, slots i = some pair → s.bucketOf pair.key = bucket
  single : ∀ i j pair pair',
    slots i = some pair → slots j = some pair' → pair.key = pair'.key → i = j

/-- The store's directory is there, and the files of every bucket are read as a chain. -/
structure Intact (s : Store) (d : Disk) : Prop where
  proper : d.Proper
  directory : d.at? s.dir = some .directory
  chains : ∀ bucket, ∃ slots length, s.Linked bucket slots length ∧ s.Reads bucket slots d

/-- The store's directory is there, and the files of every bucket are read as a chain of the
contents. -/
structure Filled (s : Store) (M : Contents) (d : Disk) : Prop where
  proper : d.Proper
  directory : d.at? s.dir = some .directory
  chains : ∀ bucket, ∃ slots n, Chain s M bucket slots n ∧ s.Reads bucket slots d

theorem Chain.linked (h : Chain s M bucket slots n) : s.Linked bucket slots n :=
  ⟨h.taken, h.placed, h.single⟩

theorem Filled.intact (h : s.Filled M d) : s.Intact d where
  proper := h.proper
  directory := h.directory
  chains := fun bucket => by
    obtain ⟨slots, n, hc, hreads⟩ := h.chains bucket
    exact ⟨slots, n, hc.linked, hreads⟩

/-- What files of a store with pairs within the limits hold fills it. -/
theorem Holds.filled (h : s.Holds M d) (hdir : d.at? s.dir = some .directory) : s.Filled M d where
  proper := h.proper
  directory := hdir
  chains := fun bucket => by
    obtain ⟨slots, n, hc, hshows⟩ := h.chains bucket
    exact ⟨slots, n, hc, h.reads hc hshows⟩

/-- A chain has at most one value for a key. -/
theorem Linked.exists_value (h : s.Linked bucket slots n) (key : String) :
    ∃ v?, ∀ v, v? = some v ↔ ∃ i, slots i = some ⟨key, v⟩ := by
  by_cases hkey : ∃ v i, slots i = some ⟨key, v⟩
  · obtain ⟨v, i, hi⟩ := hkey
    refine ⟨some v, fun w => ⟨?_, ?_⟩⟩
    · rintro ⟨⟩
      exact ⟨i, hi⟩
    · rintro ⟨j, hj⟩
      obtain rfl := h.single i j _ _ hi hj rfl
      rw [hi, Option.some.injEq, StoredPair.mk.injEq] at hj
      rw [hj.2]
  · exact ⟨none, fun w => iff_of_false (by simp) fun ⟨i, hi⟩ => hkey ⟨w, i, hi⟩⟩

/-- Intact chains hold contents. -/
theorem Intact.exists_filled (h : s.Intact d) : ∃ M, s.Filled M d := by
  choose slots n hlinked hreads using h.chains
  choose M hM using fun key => (hlinked (s.bucketOf key)).exists_value key
  refine ⟨M, h.proper, h.directory, fun bucket => ⟨slots bucket, n bucket, ?_, hreads bucket⟩⟩
  refine ⟨(hlinked bucket).taken, (hlinked bucket).placed, ?_, ?_, (hlinked bucket).single⟩
  · intro i pair hi
    rw [hM, (hlinked bucket).placed i pair hi]
    exact ⟨i, hi⟩
  · rintro key v rfl hv
    exact (hM key v).1 hv

/-! ## Reading a key -/

/-- Every key is read as the contents say, and reading changes nothing. -/
def Serves (s : Store) (M : Contents) (d : Disk) : Prop :=
  ∀ key, ((Call.get key).perform s).Answers d (((Call.get key).onMap M).1, s)

theorem Filled.serves (h : s.Filled M d) : s.Serves M d := by
  intro key
  cases hkey : checkKey key with
  | error f =>
    simp only [Call.onMap, hkey]
    exact Action.Answers.bind (answers_get_refused hkey) (Action.answers_done _ d)
  | ok _ =>
    obtain ⟨slots, n, hc, hreads⟩ := h.chains (s.bucketOf key)
    have hget := answers_get_of_reads h.proper h.directory hc hreads hkey
    cases hM : M key with
    | none =>
      rw [hM] at hget
      simp only [Call.onMap, hkey, hM]
      exact Action.Answers.bind hget (Action.answers_done _ d)
    | some value =>
      rw [hM] at hget
      simp only [Call.onMap, hkey, hM]
      exact Action.Answers.bind hget (Action.answers_done _ d)

/-! ## Putting and deleting a key -/

theorem Reads.of_same (h : s.Reads bucket slots d)
    (hsame : ∀ i, e.at? (s.slotPath bucket i) = d.at? (s.slotPath bucket i)) :
    s.Reads bucket slots e where
  free := fun i hi => by rw [hsame, h.free i hi]
  taken := fun i pair hi => by
    rw [hsame]
    exact h.taken i pair hi

/-- Drafts do not matter. -/
theorem Filled.of_alike (h : s.Filled M d) (he : e.Proper) (halike : Alike s.dir d e) :
    s.Filled M e where
  proper := he
  directory := halike.at?_dir.trans h.directory
  chains := fun bucket => by
    obtain ⟨slots, n, hc, hreads⟩ := h.chains bucket
    exact ⟨slots, n, hc, hreads.of_same fun i => halike.at?_entryPath _ _⟩

/-- Only the chain of the key's bucket is another one. -/
theorem Filled.update (h : s.Filled M d) (he : e.Proper) (hdir : e.at? s.dir = some .directory)
    {v? : Option String} (hc : Chain s (Function.update M key v?) (s.bucketOf key) slots n)
    (hreads : s.Reads (s.bucketOf key) slots e)
    (hothers : ∀ bucket i, bucket ≠ s.bucketOf key →
      e.at? (s.slotPath bucket i) = d.at? (s.slotPath bucket i)) :
    s.Filled (Function.update M key v?) e where
  proper := he
  directory := hdir
  chains := fun bucket => by
    by_cases hb : bucket = s.bucketOf key
    · exact hb ▸ ⟨slots, n, hc, hreads⟩
    · obtain ⟨slots', n', hc', hreads'⟩ := h.chains bucket
      exact ⟨slots', n', hc'.update (Ne.symm hb) v?, hreads'.of_same fun i => hothers bucket i hb⟩

theorem Reads.of_written {i : Nat} {pair : StoredPair} (h : s.Reads bucket slots d)
    (hpair : (Wire.ofBytes (Wire.encode pair) : Except CodecFault StoredPair) = .ok pair)
    (hwritten : Written d s.dir (slotName bucket i) (Wire.encode pair) e) :
    s.Reads bucket (Function.update slots i (some pair)) e where
  free := by
    intro j hj
    by_cases hji : j = i
    · rw [hji, Function.update_self] at hj
      cases hj
    · rw [Function.update_of_ne hji] at hj
      rw [slotPath, hwritten.at?_entryPath, if_neg fun heq => hji (slotName_inj heq).2]
      exact h.free j hj
  taken := by
    intro j pair' hj
    rw [slotPath, hwritten.at?_entryPath]
    by_cases hji : j = i
    · subst hji
      rw [Function.update_self] at hj
      cases hj
      exact ⟨_, if_pos rfl, hpair⟩
    · rw [Function.update_of_ne hji] at hj
      rw [if_neg fun heq => hji (slotName_inj heq).2]
      exact h.taken j pair' hj

theorem Filled.of_written (h : s.Filled M d) (he : e.Proper) (hpair : checkPair key value = .ok ())
    (hc : Chain s M (s.bucketOf key) slots n) (hreads : s.Reads (s.bucketOf key) slots d) {i : Nat}
    (hfits : Chain.Fits slots n key i)
    (hwritten : Written d s.dir (slotName (s.bucketOf key) i)
      (Wire.encode (⟨key, value⟩ : StoredPair)) e) :
    s.Filled (Function.update M key (some value)) e := by
  have hbytes := ofBytes_encode_of_checkPair hpair
  have hne : s.dir ≠ entryPath s.dir (slotName (s.bucketOf key) i) ∧
      s.dir ≠ draftPath s.dir (slotName (s.bucketOf key) i) := by simp [entryPath, draftPath]
  refine h.update he ?_ (hc.put rfl hfits) (hreads.of_written hbytes hwritten) fun bucket j hb => ?_
  · rw [hwritten, if_neg hne.1, if_neg hne.2, h.directory]
  · rw [slotPath, hwritten.at?_entryPath, if_neg fun heq => hb (slotName_inj heq).1]

theorem Reads.closed {i : Nat} (h : s.Reads bucket slots d)
    (hat : ∀ j, e.at? (s.slotPath bucket j) = if j = n - 1 then none
      else d.at? (s.slotPath bucket (if j = i then n - 1 else j))) :
    s.Reads bucket (Chain.closed slots (n - 1) i) e := by
  have hslot :
      ∀ j, j ≠ n - 1 → Chain.closed slots (n - 1) i j = slots (if j = i then n - 1 else j) := by
    intro j hj
    rw [Chain.closed, if_neg hj]
    split <;> rfl
  constructor
  · intro j hj
    rw [hat]
    by_cases hlast : j = n - 1
    · rw [if_pos hlast]
    · rw [hslot j hlast] at hj
      rw [if_neg hlast, h.free _ hj]
  · intro j pair hj
    have hlast : j ≠ n - 1 := by
      rintro rfl
      rw [Chain.closed, if_pos rfl] at hj
      cases hj
    rw [hslot j hlast] at hj
    rw [hat, if_neg hlast]
    exact h.taken _ pair hj

/-- A value that is put is there, or there is a fault. -/
theorem Filled.ensures_put (h : s.Filled M d) (key value : String) :
    (s.put key value).Ensures (fun _ => True)
      (fun r e => r = .ok () → e.Proper → s.Filled (Function.update M key (some value)) e) d := by
  cases hpair : checkPair key value with
  | error f => exact (answers_put_refused hpair).ensures trivial (by simp)
  | ok _ =>
    obtain ⟨slots, n, hc, hreads⟩ := h.chains (s.bucketOf key)
    refine ensures_put_of_reads h.proper h.directory hc hreads hpair fun i hfits => ?_
    by_cases hdraft : d.at? (draftPath s.dir (slotName (s.bucketOf key) i)) = some .directory
    · exact (answers_writeEntry_directory _ hdraft).ensures trivial (by simp)
    · exact (ensures_writeEntry _ h.directory hdraft (hreads.not_directory i)).mono
        (fun _ _ => trivial) fun r e _ hQ _ he => h.of_written he hpair hc hreads hfits hQ.2

/-- A key that is deleted is gone, or there is a fault. -/
theorem Filled.ensures_delete (h : s.Filled M d) (key : String) :
    (s.delete key).Ensures (fun _ => True)
      (fun r e => r = .ok () → e.Proper → s.Filled (Function.update M key none) e) d := by
  cases hkey : checkKey key with
  | error f => exact (answers_delete_refused hkey).ensures trivial (by simp)
  | ok _ =>
    obtain ⟨slots, n, hc, hreads⟩ := h.chains (s.bucketOf key)
    cases hM : M key with
    | none =>
      exact (answers_delete_of_reads h.proper h.directory hc hreads hkey hM).ensures trivial
        (by simp)
    | some v =>
      refine ensures_delete_of_reads h.proper h.directory hc hreads hkey hM
        fun i pair hi hpair => ?_
      obtain ⟨e, happly, hat, hrest⟩ := apply_closing h.directory hc hreads hi
      have hdir : e.at? s.dir = some .directory := by
        rw [hrest s.dir fun j => by simp [slotPath, entryPath], h.directory]
      refine ensures_change happly trivial trivial fun _ he => ?_
      exact h.update he hdir (hc.delete hi hpair) (hreads.closed hat) fun bucket j hb =>
        hrest _ fun j' heq => hb (slotPath_inj heq).1

end Store

end RingStore
