import RingStore.Proofs.Store.Contents

/-!
# A store is a finite map

A store opened on an empty directory answers every call as a map from keys to values does, with the
checks of lengths in front (`performs_as_map`). After every call its directory holds one file for
each key of the map, and no other: the files of a bucket stand in its first slots, without a gap,
each is read as a pair of the map, and no key is in two of them (`Files`).
-/

namespace RingStore

open Disk Disk.Attempt

namespace Store

variable {s : Store} {M : Contents} {d e : Disk} {key value : String}

/-! ## Calls -/

/-- A call on a store. -/
inductive Call
  | get (key : String)
  | put (key value : String)
  | delete (key : String)
  /-- The store is opened again. -/
  | reopen
  deriving DecidableEq, Repr

namespace Call

/-- Carries a call out: its answer, with the value that was read, and the store to go on with. -/
def perform (s : Store) : Call → Action (Except Fault (Option String) × Store)
  | get key => do return ((← (s.get key).run).map some, s)
  | put key value => do return ((← (s.put key value).run).map fun _ => none, s)
  | delete key => do return ((← (s.delete key).run).map fun _ => none, s)
  | reopen => do
    match ← (openIn s.dir s.buckets).run with
    | .ok s => return (.ok none, s)
    | .error f => return (.error f, s)

/-- What a map answers to a call, and the map afterwards. -/
def onMap (M : Contents) : Call → Except Fault (Option String) × Contents
  | get key =>
    match checkKey key, M key with
    | .error f, _ => (.error f, M)
    | .ok (), some value => (.ok (some value), M)
    | .ok (), none => (.error .noSuchKey, M)
  | put key value =>
    match checkPair key value with
    | .error f => (.error f, M)
    | .ok () => (.ok none, Function.update M key (some value))
  | delete key =>
    match checkKey key, M key with
    | .error f, _ => (.error f, M)
    | .ok (), some _ => (.ok none, Function.update M key none)
    | .ok (), none => (.error .noSuchKey, M)
  | reopen => (.ok none, M)

/-- Carries calls out one after the other. -/
def performAll (s : Store) : List Call → Action (List (Except Fault (Option String)) × Store)
  | [] => return ([], s)
  | call :: calls => do
    let (answer, s) ← call.perform s
    let (answers, s) ← performAll s calls
    return (answer :: answers, s)

/-- What a map answers to calls, and the map afterwards. -/
def allOnMap (M : Contents) : List Call → List (Except Fault (Option String)) × Contents
  | [] => ([], M)
  | call :: calls =>
    ((call.onMap M).1 :: (allOnMap (call.onMap M).2 calls).1, (allOnMap (call.onMap M).2 calls).2)

end Call

/-! ## The files of a store -/

/-- The pair that the file of a name is read as. -/
def pairOf? (s : Store) (d : Disk) (name : String) : Option StoredPair :=
  match d.at? (s.dir ++ [name]) with
  | some (.file content) => (Wire.ofBytes content : Except CodecFault StoredPair).toOption
  | _ => none

/-- The files in a store's directory are those of the keys of a map, in chains of slots. -/
structure Files (s : Store) (M : Contents) (d : Disk) : Prop where
  /-- Everything in the directory is a pair of the map, in a slot of the bucket of its key. -/
  placed : ∀ name ∈ d.names s.dir, ∃ e i, s.pairOf? d name = some e ∧
    s.dir ++ [name] = s.slotPath (s.bucketOf e.key) i ∧ M e.key = some e.value
  /-- A bucket's slots are taken from the first on, without a gap. -/
  contiguous : ∀ bucket i j, i ≤ j → (d.at? (s.slotPath bucket j)).isSome →
    (d.at? (s.slotPath bucket i)).isSome
  /-- Every key of the map is in exactly one file. -/
  single : ∀ key, (M key).isSome → ∃! name, ∃ e, s.pairOf? d name = some e ∧ e.key = key

/-- The store holds the map in its directory, and nothing but slots is there. -/
structure Keeps (s : Store) (M : Contents) (d : Disk) : Prop where
  holds : s.Holds M d
  directory : d.at? s.dir = some .directory
  slots : ∀ name, (d.at? (s.dir ++ [name])).isSome →
    ∃ bucket i, s.dir ++ [name] = s.slotPath bucket i

/-- The file of a slot is read as what the slot holds. -/
theorem pairOf?_of_slot {bucket i : Nat} {slots : Nat → Option StoredPair} {n : Nat} {name : String}
    (h : s.Holds M d) (hc : Chain s M bucket slots n) (hshows : s.Shows bucket slots d)
    (hname : s.dir ++ [name] = s.slotPath bucket i) : s.pairOf? d name = slots i := by
  unfold pairOf?
  rw [hname, hshows i]
  cases hi : slots i with
  | none => rfl
  | some e =>
    have hpair : (Wire.ofBytes (Wire.encode e) : Except CodecFault StoredPair) = .ok e :=
      ofBytes_encode_of_checkPair (h.short_of_chain hc i e hi)
    simp only [Option.map_some, hpair]
    rfl

theorem exists_name (s : Store) (bucket i : Nat) :
    ∃ name, s.dir ++ [name] = s.slotPath bucket i := ⟨_, rfl⟩

/-- The files of a store that keeps a map are those of its keys. -/
theorem Keeps.files (h : s.Keeps M d) : s.Files M d where
  placed := by
    intro name hname
    rw [mem_names] at hname
    obtain ⟨bucket, i, hpath⟩ := h.slots name hname
    obtain ⟨slots, n, hc, hshows⟩ := h.holds.chains bucket
    rw [hpath, hshows i, Option.isSome_map] at hname
    obtain ⟨e, he⟩ := Option.isSome_iff_exists.1 hname
    refine ⟨e, i, ?_, ?_, hc.sound i e he⟩
    · rw [pairOf?_of_slot h.holds hc hshows hpath, he]
    · rw [hc.placed i e he, hpath]
  contiguous := by
    intro bucket i j hij hj
    obtain ⟨slots, n, hc, hshows⟩ := h.holds.chains bucket
    rw [hshows, Option.isSome_map, hc.taken] at hj ⊢
    omega
  single := by
    intro key hkey
    obtain ⟨value, hM⟩ := Option.isSome_iff_exists.1 hkey
    obtain ⟨slots, n, hc, hshows⟩ := h.holds.chains (s.bucketOf key)
    obtain ⟨i, hi⟩ := hc.complete key value rfl hM
    obtain ⟨name, hname⟩ := s.exists_name (s.bucketOf key) i
    refine ⟨name, ⟨⟨key, value⟩, ?_, rfl⟩, ?_⟩
    · rw [pairOf?_of_slot h.holds hc hshows hname, hi]
    · -- another file of the key is in the same bucket, and there the key has one slot only
      rintro name' ⟨e, he, rfl⟩
      have hsome : (d.at? (s.dir ++ [name'])).isSome := by
        unfold pairOf? at he
        split at he
        · rename_i hfile
          rw [hfile]
          rfl
        · exact absurd he (by simp)
      obtain ⟨bucket, j, hpath⟩ := h.slots name' hsome
      obtain ⟨slots', n', hc', hshows'⟩ := h.holds.chains bucket
      rw [pairOf?_of_slot h.holds hc' hshows' hpath] at he
      obtain rfl := hc'.placed j e he
      have hsame : slots' j = slots j := by
        rw [← pairOf?_of_slot h.holds hc' hshows' hpath, pairOf?_of_slot h.holds hc hshows hpath]
      have hij : j = i := hc.single j i e _ (hsame ▸ he) hi rfl
      rw [hij, ← hname] at hpath
      exact List.singleton_inj.1 (List.append_cancel_left hpath)

/-! ## Serving calls -/

/-- The directory of a store is not one of its own files. -/
theorem not_owns_dir (s : Store) : ¬ s.Owns s.dir := by
  intro hown
  obtain ⟨name, hname⟩ := s.exists_of_owns hown
  exact absurd hname (by simp)

/-- A call that touches nothing but the files of the store, and adds nothing but slots, leaves the
store in order. -/
theorem Keeps.of_adds {M' : Contents} (h : s.Keeps M d) (he : s.Holds M' e)
    (hadds : s.AddsSlots d e) (hsame : ∀ q, ¬ s.Owns q → e.at? q = d.at? q) : s.Keeps M' e where
  holds := he
  directory := by rw [hsame _ s.not_owns_dir, h.directory]
  slots := by
    intro name hname
    rcases hadds _ hname with hold | hslot
    · exact h.slots name hold
    · exact hslot

/-- The call ends with the map's answer and leaves the map's files. -/
def Call.Served (s : Store) (M : Contents) (call : Call) (d : Disk) : Prop :=
  (call.perform s).Ensures (fun _ => True)
    (fun r e => r = ((call.onMap M).1, s) ∧ s.Keeps (call.onMap M).2 e) d

/-- A read is served as the map serves it. -/
theorem Keeps.get (h : s.Keeps M d) (key : String) : (Call.get key).Served s M d := by
  unfold Call.Served
  cases hkey : checkKey key with
  | error f =>
    simp only [Call.onMap, hkey]
    refine Action.Answers.ensures_bind (answers_get_refused hkey) ?_
    exact Action.ensures_done.2 ⟨trivial, rfl, h⟩
  | ok _ =>
    have hget := answers_get h.holds h.directory hkey
    cases hM : M key with
    | none =>
      rw [hM] at hget
      simp only [Call.onMap, hkey, hM]
      refine Action.Answers.ensures_bind hget ?_
      exact Action.ensures_done.2 ⟨trivial, rfl, h⟩
    | some value =>
      rw [hM] at hget
      simp only [Call.onMap, hkey, hM]
      refine Action.Answers.ensures_bind hget ?_
      exact Action.ensures_done.2 ⟨trivial, rfl, h⟩

/-- A put is served as the map serves it. -/
theorem Keeps.put (h : s.Keeps M d) (key value : String) : (Call.put key value).Served s M d := by
  unfold Call.Served
  cases hpair : checkPair key value with
  | error f =>
    simp only [Call.onMap, hpair]
    refine Action.Answers.ensures_bind (answers_put_refused hpair) ?_
    exact Action.ensures_done.2 ⟨trivial, rfl, h⟩
  | ok _ =>
    simp only [Call.onMap, hpair]
    have hput := (ensures_put h.holds h.directory hpair).and (s.within_put key value).ensures
    refine Action.Ensures.bind (hput.mono (fun _ _ => trivial) fun r e hC hQ =>
      (⟨hQ.1.1, h.of_adds hQ.1.2.1 hQ.1.2.2 hC.2⟩ : r = .ok () ∧ _)) ?_
    rintro - e - ⟨rfl, hafter⟩
    exact Action.ensures_done.2 ⟨trivial, rfl, hafter⟩

/-- A delete is served as the map serves it. -/
theorem Keeps.delete (h : s.Keeps M d) (key : String) : (Call.delete key).Served s M d := by
  unfold Call.Served
  cases hkey : checkKey key with
  | error f =>
    simp only [Call.onMap, hkey]
    refine Action.Answers.ensures_bind (answers_delete_refused hkey) ?_
    exact Action.ensures_done.2 ⟨trivial, rfl, h⟩
  | ok _ =>
    cases hM : M key with
    | none =>
      simp only [Call.onMap, hkey, hM]
      refine Action.Answers.ensures_bind (answers_delete_none h.holds h.directory hkey hM) ?_
      exact Action.ensures_done.2 ⟨trivial, rfl, h⟩
    | some value =>
      simp only [Call.onMap, hkey, hM]
      have hdelete := (ensures_delete h.holds h.directory hkey hM).and
        (s.within_delete key).ensures
      refine Action.Ensures.bind (hdelete.mono (fun _ _ => trivial) fun r e hC hQ =>
        (⟨hQ.1.1, h.of_adds hQ.1.2.1 hQ.1.2.2 hC.2⟩ : r = .ok () ∧ _)) ?_
      rintro - e - ⟨rfl, hafter⟩
      exact Action.ensures_done.2 ⟨trivial, rfl, hafter⟩

/-- Opening makes the directory if it is missing, and nothing else. -/
theorem ensures_openIn {dir : Path} {buckets : Nat} (hbuckets : 0 < buckets) (hd : d.Proper)
    (hclear : d.Clear dir) :
    (openIn dir buckets).Ensures (fun _ => True) (fun r e => r = .ok ⟨dir, buckets⟩ ∧ e.Proper ∧
      Opened d dir e ∧ e.at? dir = some .directory) d := by
  have hmade : (ensureDirectory dir).Ensures (fun _ => True)
      (fun r e => r = .ok () ∧ e.Proper ∧ Opened d dir e ∧ e.at? dir = some .directory) d :=
    (ensures_ensureDirectory hclear).mono_proper hd (fun _ _ _ => trivial)
      fun r e he hopened hQ => ⟨hQ.1, he, hopened, hQ.2⟩
  unfold openIn
  rw [if_neg (by omega)]
  refine Ensures.bind_ok hmade ?_
  intro e _ hopened
  exact (answers_pure _ e).ensures trivial ⟨rfl, hopened⟩

/-- A store that is opened again holds what it held. -/
theorem Keeps.reopen (h : s.Keeps M d) (hbuckets : 0 < s.buckets) :
    Call.reopen.Served s M d := by
  have hproper := h.holds.proper
  refine Action.Ensures.bind (ensures_openIn hbuckets hproper (hproper.clear h.directory)) ?_
  rintro - e - ⟨rfl, hproper, hopened, hdir⟩
  refine Action.ensures_done.2 ⟨trivial, rfl, ?_, hdir, ?_⟩
  · apply h.holds.of_same hproper
    intro q hq
    obtain ⟨name, rfl⟩ := s.exists_of_owns hq
    exact hopened.at?_append name
  · intro name hname
    rw [hopened.at?_append] at hname
    exact h.slots name hname

/-- Every call is served as the map serves it. -/
theorem Keeps.served (h : s.Keeps M d) (hbuckets : 0 < s.buckets) (call : Call) :
    call.Served s M d := by
  cases call with
  | get key => exact h.get key
  | put key value => exact h.put key value
  | delete key => exact h.delete key
  | reopen => exact h.reopen hbuckets

/-- Calls that come one after the other are served as the map serves them. -/
theorem Keeps.performAll (hbuckets : 0 < s.buckets) (calls : List Call) (h : s.Keeps M d) :
    (Call.performAll s calls).Ensures (fun _ => True)
      (fun r e => r = ((Call.allOnMap M calls).1, s) ∧ s.Keeps (Call.allOnMap M calls).2 e) d := by
  induction calls generalizing M d with
  | nil => exact Action.ensures_done.2 ⟨trivial, rfl, h⟩
  | cons call calls ih =>
    refine Action.Ensures.bind (h.served hbuckets call) ?_
    rintro - e - ⟨rfl, hstep⟩
    refine Action.Ensures.bind (ih hstep) ?_
    rintro - e' - ⟨rfl, hrest⟩
    exact Action.ensures_done.2 ⟨trivial, rfl, hrest⟩

/-- A store that was opened where nothing was keeps the empty map. -/
theorem keeps_of_opened {dir : Path} {buckets : Nat} (h : d.Vacant dir) (he : e.Proper)
    (hopened : Opened d dir e) (hdir : e.at? dir = some .directory) :
    (Store.mk dir buckets).Keeps (fun _ => none) e := by
  have hbelow : ∀ q, dir <+: q → q ≠ dir → e.at? q = none := by
    intro q hpre hne
    rw [hopened.at?_elsewhere, h.below q hpre hne]
    intro hpre'
    exact hne (hpre'.eq_of_length (Nat.le_antisymm hpre'.length_le hpre.length_le))
  have hvacant : e.Vacant dir := ⟨he, he.clear hdir, hbelow⟩
  refine ⟨holds_of_vacant hvacant, hdir, ?_⟩
  intro name hname
  rw [hvacant.at?_append] at hname
  exact absurd hname (by simp)

/-- A store that is opened on an empty directory, or where none is yet, answers all calls as a map
does, and then holds the map in its files. -/
theorem performs_as_map {dir : Path} {buckets : Nat} (hbuckets : 0 < buckets) (hd : d.Vacant dir)
    (calls : List Call) :
    ∃ s d₀ answers e, (openIn dir buckets).run.run d = (.ok s, d₀) ∧
      (Call.performAll s calls).run d₀ = ((answers, s), e) ∧
      answers = (Call.allOnMap (fun _ => none) calls).1 ∧
      s.Files (Call.allOnMap (fun _ => none) calls).2 e := by
  obtain ⟨-, heq, hproper, hopened, hdir⟩ := ensures_openIn hbuckets hd.proper hd.clear
  have hkeeps : (Store.mk dir buckets).Keeps (fun _ => none) _ :=
    keeps_of_opened hd hproper hopened hdir
  obtain ⟨-, hrun, hafter⟩ := hkeeps.performAll hbuckets calls
  exact ⟨_, _, _, _, Prod.ext heq rfl, Prod.ext hrun rfl, rfl, hafter.files⟩

/-- Two keys in the only bucket: the last one of the chain comes into the place of the one that
goes, and is found there after the store is opened again. -/
theorem performs_as_map_of_colliding :
    ∃ s d₀ e, (openIn ["data"] 1).run.run Disk.empty = (.ok s, d₀) ∧
      (Call.performAll s [.put "a" "1", .put "b" "2", .delete "a", .reopen, .get "b"]).run d₀ =
        (([.ok none, .ok none, .ok none, .ok none, .ok (some "2")], s), e) ∧
      s.Files (Function.update (Function.update (Function.update (fun _ => none) "a" (some "1"))
        "b" (some "2")) "a" none) e := by
  obtain ⟨s, d₀, answers, e, hopen, hrun, rfl, hfiles⟩ :=
    performs_as_map (show 0 < 1 by decide) (vacant_empty ["data"])
      [.put "a" "1", .put "b" "2", .delete "a", .reopen, .get "b"]
  exact ⟨s, d₀, e, hopen, hrun, hfiles⟩

end Store

end RingStore
