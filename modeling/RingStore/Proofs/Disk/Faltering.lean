import RingStore.Proofs.Disk.Failing

/-!
# Actions whose calls may fail without a trace

A call that creates, opens, reads, writes, renames or removes a file may fail, and then it changes
nothing; to look at a path, to count and to make a directory can be relied on. `Action.Falters`
tells with which answers and on which disks an action can end then. This is less than `Action.Ends`
allows, and so more can be said. An action that `Halts` is over as soon as a call fails, on a disk
that it would have passed through (`Halts.falters`). An action that is `Late` changes nothing but
drafts up to the change that it ends with, so that a fault leaves no trace (`Late.at?_of_falters`).
-/

namespace RingStore

namespace Disk

open Attempt

variable {d e : Disk} {p q : Path}

/-- The change is made by a call on a file, which may fail. -/
def Change.OnFile : Change → Prop
  | .create _ | .write _ _ | .rename _ _ | .unlink _ => True
  | .makeDirectory _ | .removeTree _ => False

/-- The path is no draft. -/
def Settled (q : Path) : Prop := ∀ dir stem, q ≠ draftPath dir stem

theorem settled_entryPath (dir : Path) (stem : String) : Settled (entryPath dir stem) :=
  fun _ _ => entryPath_ne_draftPath

namespace Action

variable {α β : Type} {bad : α → Prop} {bad' : β → Prop}

/-- Calls on files may fail, and change nothing then. -/
abbrev faltering : Mishaps := ⟨fun _ => False, fun d c e => c.OnFile ∧ e = d, False⟩

/-- The action can end with this answer and on this disk if calls on files may fail and change
nothing then. -/
abbrev Falters (x : Action α) (d : Disk) (a : α) (e : Disk) : Prop := Fares faltering x d (some a) e

/-- A call that fails without a trace is one that fails. -/
theorem Falters.ends {x : Action α} {a : α} (h : Falters x d a e) (blind : Path → Prop) :
    Ends blind x d a e :=
  Fares.mono h ⟨fun _ => False.elim, fun _ _ _ hc => hc.2 ▸ .unmade, id⟩

theorem Falters.proper {x : Action α} {a : α} (h : Falters x d a e) (hd : d.Proper) : e.Proper :=
  Fares.proper h (fun _ _ _ hc hd => hc.2 ▸ hd) hd

/-! ## Actions that are over when a call fails -/

/-- Whenever a call on a file fails the action is over, with an answer that is bad. -/
def Halts (bad : α → Prop) : Action α → Prop
  | done _ => True
  | read _ next =>
    (∀ f, f ≠ .notFound → ∃ a, bad a ∧ next (.error f) = done a) ∧ ∀ r, (next r).Halts bad
  | list _ next =>
    (∀ f, f ≠ .notFound → ∃ a, bad a ∧ next (.error f) = done a) ∧ ∀ r, (next r).Halts bad
  | look _ next => ∀ r, (next r).Halts bad
  | count _ next => ∀ n, (next n).Halts bad
  | change c next =>
    (c.OnFile → ∀ f, f ≠ .notFound → ∃ a, bad a ∧ next (.error f) = done a) ∧
      ∀ r, (next r).Halts bad

/-- An action that halts either meets no failing call, or ends badly on a disk that it would have
passed through. -/
theorem Halts.falters {x : Action α} {a : α} (hx : x.Halts bad) (h : Falters x d a e) :
    x.run d = (a, e) ∨ bad a ∧ e ∈ x.trail d := by
  unfold Falters at h
  generalize ha : some a = o at h
  induction h with
  | cut _ => cases ha
  | done =>
    cases ha
    exact .inl rfl
  | read _ ih | list _ ih => exact ih (hx.2 _) ha
  | look _ ih | count _ ih => exact ih (hx _) ha
  | lookFails hp _ _ => exact hp.elim
  | @readFails p next d e _ f hf h _ | @listFails p next d e _ f hf h _ =>
    obtain ⟨b, hb, hnext⟩ := hx.1 f hf
    subst ha
    obtain ⟨rfl, rfl⟩ := fares_done (hnext ▸ h)
    exact .inr ⟨hb, mem_trail_self _ _⟩
  | refused hc _ ih =>
    rw [run, trail, hc]
    exact ih (hx.2 _) ha
  | change hc _ ih =>
    rw [run, trail, hc]
    exact (ih (hx.2 _) ha).imp_right fun h => ⟨h.1, List.mem_cons_of_mem _ h.2⟩
  | @changeFails c next d d' e _ f hf hc h _ =>
    obtain ⟨hfile, rfl⟩ := hc
    obtain ⟨b, hb, hnext⟩ := hx.1 hfile f hf
    subst ha
    obtain ⟨rfl, rfl⟩ := fares_done (hnext ▸ h)
    exact .inr ⟨hb, mem_trail_self _ _⟩

theorem Halts.bind {x : Action α} {f : α → Action β} (hx : x.Halts bad)
    (hbad : ∀ a, bad a → ∃ b, bad' b ∧ f a = done b) (hf : ∀ a, (f a).Halts bad') :
    (x.bind f).Halts bad' := by
  have hover : ∀ {y : Action α}, (∃ a, bad a ∧ y = done a) → ∃ b, bad' b ∧ y.bind f = done b := by
    rintro _ ⟨a, ha, rfl⟩
    exact hbad a ha
  induction x with
  | done a => exact hf a
  | read p next ih | list p next ih =>
    exact ⟨fun g hg => hover (hx.1 g hg), fun r => ih r (hx.2 r)⟩
  | look p next ih | count p next ih => exact fun r => ih r (hx r)
  | change c next ih => exact ⟨fun hc g hg => hover (hx.1 hc g hg), fun r => ih r (hx.2 r)⟩

/-- The answer is a fault that is not about a missing key. -/
def Faulty (r : Except Fault α) : Prop := ∃ f, f ≠ .noSuchKey ∧ r = .error f

theorem Stops.halts {blind : Path → Prop} {x : Action (Except Fault α)} (hx : x.Stops blind) :
    x.Halts Faulty := by
  have hover : ∀ {y : Action (Except Fault α)}, y.Failed → ∃ r, Faulty r ∧ y = done r := by
    rintro _ ⟨f, hf, rfl⟩
    exact ⟨_, ⟨f, hf, rfl⟩, rfl⟩
  induction x with
  | done a => exact trivial
  | read p next ih | list p next ih =>
    exact ⟨fun g hg => hover (hx.1 g hg), fun r => ih r (hx.2 r)⟩
  | look p next ih => exact fun r => ih r (hx.2 r)
  | count p next ih => exact fun n => ih n (hx n)
  | change c next ih => exact ⟨fun _ g hg => hover (hx.1 g hg), fun r => ih r (hx.2.2 r)⟩

/-! ## Actions that fail without a trace -/

/-- Nothing but drafts is changed before the change that the action ends with, and if that one is
made the answer is no fault. -/
def Late : Action (Except Fault α) → Prop
  | done _ => True
  | read _ next => ∀ r, (next r).Late
  | list _ next => ∀ r, (next r).Late
  | look _ next => ∀ r, (next r).Late
  | count _ next => ∀ n, (next n).Late
  | change c next =>
    (∀ r, (next r).Late) ∧ ((∀ q, c.Touches q → ¬ Settled q) ∨ ∃ a, next (.ok ()) = done (.ok a))

/-- Where it ends with a fault, a late action leaves everything but drafts. -/
theorem Late.at?_of_falters {x : Action (Except Fault α)} {f : Fault} (hx : x.Late)
    (h : Falters x d (.error f) e) (hq : Settled q) : e.at? q = d.at? q := by
  unfold Falters at h
  generalize hr : some (.error f : Except Fault α) = o at h
  induction h with
  | cut _ | done => rfl
  | read _ ih | readFails _ _ ih | list _ ih | listFails _ _ ih | look _ ih | lookFails _ _ ih
  | count _ ih => exact ih (hx _) hr
  | refused _ _ ih => exact ih (hx.1 _) hr
  | changeFails _ hc _ ih =>
    obtain ⟨-, rfl⟩ := hc
    exact ih (hx.1 _) hr
  | change hc h ih =>
    rcases hx.2 with hdraft | ⟨a, hnext⟩
    · rw [ih (hx.1 _) hr]
      exact at?_of_apply hc fun htouch => hdraft q htouch hq
    · subst hr
      exact absurd (fares_done (hnext ▸ h)).1 (by simp)

/-- What comes before a late action changes nothing but drafts. -/
theorem Late.bind {x : Action (Except Fault α)} {f : Except Fault α → Action (Except Fault β)}
    (hx : x.Within fun q => ¬ Settled q) (hf : ∀ r, (f r).Late) : (x.bind f).Late := by
  induction x with
  | done r => exact hf r
  | read p next ih | list p next ih | look p next ih | count p next ih => exact fun r => ih r (hx r)
  | change c next ih => exact ⟨fun r => ih r (hx.2 r), .inl hx.1⟩

/-- What comes after a late action only answers. -/
theorem Late.answer {x : Action (Except Fault α)} {f : Except Fault α → Action (Except Fault β)}
    (hx : x.Late) (herror : ∀ g, f (.error g) = done (.error g))
    (hok : ∀ a, ∃ b, f (.ok a) = done (.ok b)) : (x.bind f).Late := by
  induction x with
  | done r =>
    cases r with
    | error g =>
      show (f (.error g)).Late
      rw [herror]
      exact trivial
    | ok a =>
      obtain ⟨b, hb⟩ := hok a
      show (f (.ok a)).Late
      rw [hb]
      exact trivial
  | read p next ih | list p next ih | look p next ih | count p next ih => exact fun r => ih r (hx r)
  | change c next ih =>
    refine ⟨fun r => ih r (hx.1 r), hx.2.imp_right ?_⟩
    rintro ⟨a, ha⟩
    obtain ⟨b, hb⟩ := hok a
    refine ⟨b, ?_⟩
    show (next (.ok ())).bind f = done (.ok b)
    rw [ha]
    exact hb

end Action

namespace Attempt

variable {α β : Type}

/-- Whenever a call on a file fails the attempt is over, with a fault. -/
def Halts (x : Attempt α) : Prop := Action.Halts Action.Faulty x.run

/-- The attempt fails without a trace but for drafts. -/
def Late (x : Attempt α) : Prop := Action.Late x.run

theorem Stops.halts {blind : Path → Prop} {x : Attempt α} (hx : x.Stops blind) : x.Halts :=
  Action.Stops.halts hx

/-- What is bound to an attempt is tried only if the attempt ends well. -/
theorem falters_bind {x : Attempt α} {f : α → Attempt β} {answer : Except Fault β}
    (h : Action.Falters (x >>= f).run d answer e) :
    (∃ g, answer = .error g ∧ Action.Falters x.run d (.error g) e) ∨
      ∃ a c, Action.Falters x.run d (.ok a) c ∧ Action.Falters (f a).run c answer e := by
  obtain ⟨r, c, hx, hf⟩ := Action.fares_bind h
  cases r with
  | ok a => exact .inr ⟨a, c, hx, hf⟩
  | error g =>
    obtain ⟨rfl, rfl⟩ := Action.fares_done hf
    exact .inl ⟨g, rfl, hx⟩

/-- An attempt that ends well has done so in all its parts. -/
theorem falters_bind_ok {x : Attempt α} {f : α → Attempt β} {b : β}
    (h : Action.Falters (x >>= f).run d (.ok b) e) :
    ∃ a c, Action.Falters x.run d (.ok a) c ∧ Action.Falters (f a).run c (.ok b) e := by
  rcases falters_bind h with ⟨g, heq, -⟩ | hparts
  · cases heq
  · exact hparts

/-- A file is not written if its draft cannot be created. -/
theorem falters_writeEntry_failed {f : DiskFault} (hf : f ≠ .notFound) (dir : Path) (stem : String)
    (content : Bytes) :
    Action.Falters (writeEntry dir stem content).run d (.error (.io (.disk f))) d :=
  Action.Fares.bind (.changeFails hf ⟨trivial, rfl⟩ .done) .done

theorem Halts.bind {x : Attempt α} {f : α → Attempt β} (hx : x.Halts) (hf : ∀ a, (f a).Halts) :
    (x >>= f).Halts := by
  refine Action.Halts.bind hx ?_ ?_
  · rintro _ ⟨g, hg, rfl⟩
    exact ⟨_, ⟨g, hg, rfl⟩, rfl⟩
  · rintro (g | a)
    · exact trivial
    · exact hf a

/-- An attempt that would change nothing changes nothing where calls fail. -/
theorem Halts.falters_of_answers {x : Attempt α} {r r' : Except Fault α} (hx : x.Halts)
    (h : x.Answers d r) (hfalters : Action.Falters x.run d r' e) :
    (r' = r ∨ ∃ f, r' = .error f) ∧ e = d := by
  rcases Action.Halts.falters hx hfalters with hrun | ⟨⟨f, -, rfl⟩, htrail⟩
  · obtain ⟨rfl, rfl⟩ := Prod.mk.inj (hrun.symm.trans h.2)
    exact ⟨.inl rfl, rfl⟩
  · rw [h.1, List.mem_singleton] at htrail
    exact ⟨.inr ⟨f, rfl⟩, htrail⟩

theorem halts_isDirectory (p : Path) : (isDirectory p).Halts := fun _ => trivial

theorem halts_exists? (p : Path) : (exists? p).Halts := fun _ => trivial

theorem halts_count (p : Path) : (count p).Halts := fun _ => trivial

theorem halts_makeDirectories (above : Path) : (makeDirectories above).Halts := by
  have hmake : ∀ p, (tryChange (.makeDirectory p)).Halts :=
    fun _ => ⟨fun h => h.elim, fun _ => trivial⟩
  have haccept : ∀ p r, (acceptMade p r).Halts := by
    rintro p (f | ⟨⟩)
    · refine Halts.bind (halts_isDirectory p) fun shown => ?_
      cases shown <;> exact trivial
    · exact trivial
  induction above with
  | nil => exact trivial
  | cons name above ih =>
    rw [makeDirectories_cons]
    refine Halts.bind (hmake _) fun r => ?_
    split
    · exact Halts.bind ih fun _ => Halts.bind (hmake _) fun r => haccept _ r
    · exact haccept _ _

theorem halts_ensureDirectory (p : Path) : (ensureDirectory p).Halts := halts_makeDirectories _

theorem Late.bind {x : Attempt α} {f : α → Attempt β} (hx : x.Within fun q => ¬ Settled q)
    (hf : ∀ a, (f a).Late) : (x >>= f).Late := by
  refine Action.Late.bind hx ?_
  rintro (g | a)
  · exact trivial
  · exact hf a

theorem Late.map {x : Attempt α} (hx : x.Late) (f : α → β) :
    (x >>= fun a => (pure (f a) : Attempt β)).Late :=
  Action.Late.answer hx (fun _ => rfl) fun a => ⟨f a, rfl⟩

/-- A single change either is made or leaves no trace. -/
theorem late_change (c : Change) : (change c).Late := ⟨fun _ => trivial, .inr ⟨(), rfl⟩⟩

theorem late_writeEntry (dir : Path) (stem : String) (content : Bytes) :
    (writeEntry dir stem content).Late := by
  have hdraft : ∀ c : Change, (∀ q, c.Touches q → q = draftPath dir stem) →
      (change c).Within fun q => ¬ Settled q :=
    fun c hc => ⟨fun q hq hsettled => hsettled dir stem (hc q hq), fun _ => trivial⟩
  exact Late.bind (hdraft _ fun q hq => hq) fun _ =>
    Late.bind (hdraft _ fun q hq => hq) fun _ => late_change _

end Attempt

end Disk

end RingStore
