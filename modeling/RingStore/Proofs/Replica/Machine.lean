import RingStore.Proofs.Replica.Serving

/-!
# The machine of a replica

A machine is the disk of a replica, with the replica itself while it runs. It is switched on and
off, and can go off at any point while the replica is opened or serves a request. Whatever happens,
the machine is `At` some contents and some standing: its disk is kept for them, and the replica is
sound if it runs.
-/

namespace RingStore

open Disk Disk.Attempt

/-- A replica's disk, and the replica itself while it runs. -/
structure Machine where
  disk : Disk
  /-- The replica, if it runs. -/
  replica? : Option Replica

namespace ReplicaSettings

/-- The replica votes, and its cache can be made. -/
structure Serviceable (settings : ReplicaSettings) : Prop where
  votes : settings.votes = true
  cache : ∃ cache, Cache.create settings.cacheSets settings.cacheSlots = .ok cache

/-- The directory is fit for a replica: it is kept for some contents and some standing. -/
def WellKept (settings : ReplicaSettings) (d : Disk) : Prop := ∃ M L, settings.Kept M L d

/-- What the store on a disk holds, with an operation carried out that the journal tells to. -/
def contents (settings : ReplicaSettings) (d : Disk) : Store.Contents :=
  (settings.standing d).settle (settings.stored d)

/-- A directory that is not there yet, or is empty, holds nothing. -/
theorem kept_of_vacant {settings : ReplicaSettings} {d : Disk} (h : d.Vacant settings.storePath) :
    settings.Kept (fun _ => none) .idle d where
  store := Store.holds_of_vacant h
  journal :=
    { proper := h.proper
      clear := by
        intro q hq content hfile
        by_cases hpre : q <+: settings.storePath
        · exact h.clear q hpre content hfile
        · obtain rfl : q = settings.journalPath := by
            rcases List.prefix_concat_iff.1 hq with heq | hq'
            · exact heq
            · exact absurd hq' hpre
          have hnone : d.at? settings.journalPath = none := h.at?_append _
          rw [hnone] at hfile
          exact absurd hfile (by simp)
      flat := fun name => by
        have hnone : d.at? (settings.journalPath ++ [name]) = none :=
          h.below _ ((List.prefix_append _ _).trans (List.prefix_append _ _))
            (by simp [journalPath])
        rw [hnone]
        simp
      holds := fun i hi => by
        have hnone : d.at? (settings.journalPath ++ [Journal.recordName i]) = none :=
          h.below _ ((List.prefix_append _ _).trans (List.prefix_append _ _))
            (by simp [journalPath])
        rw [Journal.recordPath_eq, hnone]
        rfl }
  valid := Standing.valid_idle

theorem kept_empty (settings : ReplicaSettings) :
    settings.Kept (fun _ => none) .idle Disk.empty :=
  kept_of_vacant (vacant_empty _)

end ReplicaSettings

namespace Machine

variable {settings : ReplicaSettings} {M : Store.Contents} {L : Standing} {d e : Disk} {r : Replica}
  {m m' : Machine}

/-- The disk is kept for the contents and the standing, and the replica is sound if it runs. -/
def At (settings : ReplicaSettings) (M : Store.Contents) (L : Standing) (m : Machine) : Prop :=
  settings.Kept M L m.disk ∧ ∀ r, m.replica? = some r → r.Sound settings M L m.disk

theorem at_off (h : settings.Kept M L d) : At settings M L ⟨d, none⟩ :=
  ⟨h, fun _ hr => absurd hr (by simp)⟩

theorem at_on (h : r.Sound settings M L d) : At settings M L ⟨d, some r⟩ := by
  refine ⟨h.tidy.kept, fun r' hr => ?_⟩
  obtain rfl := Option.some.inj hr
  exact h

theorem At.sound (h : At settings M L ⟨d, some r⟩) : r.Sound settings M L d := h.2 r rfl

/-- The machine goes on or off. -/
inductive Switched (settings : ReplicaSettings) : Machine → Machine → Prop
  /-- The replica is opened. -/
  | on {d d' : Disk} {r : Replica} (h : (Replica.openWith settings).run.run d = (.ok r, d')) :
    Switched settings ⟨d, none⟩ ⟨d', some r⟩
  /-- The machine goes off while the replica is opened. -/
  | cut {d e : Disk} (h : e ∈ (Replica.openWith settings).run.trail d) :
    Switched settings ⟨d, none⟩ ⟨e, none⟩
  /-- The machine goes off. -/
  | off {d : Disk} {r : Replica} : Switched settings ⟨d, some r⟩ ⟨d, none⟩

/-- A replica that does not run can be opened. -/
theorem At.opens (h : At settings M L ⟨d, none⟩) (hs : settings.Serviceable) :
    ∃ r d', (Replica.openWith settings).run.run d = (.ok r, d') ∧
      At settings (L.settle M) L ⟨d', some r⟩ := by
  obtain ⟨cache, hcache⟩ := hs.cache
  obtain ⟨-, r, heq, hsound⟩ := Replica.ensures_openWith h.1 hs.votes hcache
  exact ⟨r, _, Prod.ext heq rfl, at_on hsound⟩

/-- Going on and off keeps the standing, and carries out at most what is committed. -/
theorem At.switched (h : At settings M L m) (hs : settings.Serviceable)
    (hstep : Switched settings m m') : At settings M L m' ∨ At settings (L.settle M) L m' := by
  cases hstep with
  | @on d d' r hopen =>
    obtain ⟨r', e, heq, hat⟩ := h.opens hs
    obtain ⟨hr, rfl⟩ := Prod.mk.inj (hopen.symm.trans heq)
    obtain rfl := Except.ok.inj hr
    exact .inr hat
  | cut hopen =>
    obtain ⟨cache, hcache⟩ := hs.cache
    rcases (Replica.ensures_openWith h.1 hs.votes hcache).1 _ hopen with hbefore | hafter
    · exact .inl (at_off hbefore)
    · exact .inr (at_off hafter)
  | off => exact .inl (at_off h.1)

/-- A replica that answers has served the request on its standing. -/
theorem At.served (h : At settings M L ⟨d, some r⟩) (hs : settings.Serviceable) {now : String}
    {q : Request} (hq : q.ZeroFree) {answer : Response} {r' : Replica}
    (hserve : (r.serve now q).run d = ((answer, r'), e)) :
    At settings ((L.serve q).settle M) (L.serve q) ⟨e, some r'⟩ ∧ Replica.Answered L q answer := by
  obtain ⟨hsound, hanswer⟩ := (Replica.ensures_serve h.sound hs.votes now hq).2
  rw [hserve] at hsound hanswer
  exact ⟨at_on hsound, hanswer⟩

/-- A replica that is cut while it serves leaves a machine that passed on, or did not. -/
theorem At.cut (h : At settings M L ⟨d, some r⟩) (hs : settings.Serviceable) {now : String}
    {q : Request} (hq : q.ZeroFree) (he : e ∈ (r.serve now q).trail d) :
    ∃ L' M', L.Passes M q L' M' ∧ At settings M' L' ⟨e, none⟩ := by
  obtain ⟨L', M', hpasses, hkept⟩ := (Replica.ensures_serve h.sound hs.votes now hq).1 e he
  exact ⟨L', M', hpasses, at_off hkept⟩

end Machine

end RingStore
