import RingStore.Proofs.Disk.Entry
import RingStore.Proofs.Disk.Mishaps

/-!
# Actions whose calls may fail

Any call on the disk may fail, whatever is there. `Action.Ends` tells with which answers and on
which disks an action can end then.

An action that `Stops` ends with a fault as soon as a call fails. It then fails as if it were cut
off: on a disk that it passes through anyway, but for the bytes of a draft (`Stops.ends`). So what
it ensures of the disks on the way is sure of this one too (`Ensures.ends`).
-/

namespace RingStore

namespace Disk

open Attempt

variable {d e : Disk} {p q : Path}

/-- What a change that failed can leave: it was not made, or it was made and is only not known to
last, or the file that was to get its bytes has got others. -/
inductive Change.Leaves (d : Disk) : Change → Disk → Prop
  | unmade {c : Change} : Leaves d c d
  | made {c : Change} {e : Disk} (h : d.apply c = .ok e) : Leaves d c e
  | torn {p : Path} {content other : Bytes} {e : Disk} (h : d.apply (.write p other) = .ok e) :
    Leaves d (.write p content) e

/-- Nothing differs but for the bytes of drafts. -/
def Frayed (d e : Disk) : Prop :=
  ∀ q, e.at? q = d.at? q ∨ ∃ dir stem old new,
    q = draftPath dir stem ∧ d.at? q = some (.file old) ∧ e.at? q = some (.file new)

theorem Frayed.of_same (h : ∀ q, e.at? q = d.at? q) : Frayed d e := fun q => .inl (h q)

theorem Frayed.refl (d : Disk) : Frayed d d := .of_same fun _ => rfl

/-- A draft that is written frays nothing but itself. -/
theorem Frayed.of_write {dir : Path} {stem : String} {content : Bytes}
    (h : d.apply (.write (draftPath dir stem) content) = .ok e) : Frayed d e := by
  obtain ⟨⟨old, hold⟩, rfl⟩ := apply_write_eq_ok h
  intro q
  rw [at?_set draftPath_ne_nil]
  by_cases hq : q = draftPath dir stem
  · subst hq
    exact .inr ⟨dir, stem, old, content, rfl, hold, if_pos rfl⟩
  · exact .inl (if_neg hq)

/-- Finished files are not frayed. -/
theorem Frayed.at?_entryPath (h : Frayed d e) (dir : Path) (stem : String) :
    e.at? (entryPath dir stem) = d.at? (entryPath dir stem) := by
  rcases h (entryPath dir stem) with hsame | ⟨_, _, _, _, heq, -⟩
  · exact hsame
  · exact absurd heq entryPath_ne_draftPath

/-- No directory is frayed. -/
theorem Frayed.directory_iff (h : Frayed d e) (q : Path) :
    e.at? q = some .directory ↔ d.at? q = some .directory := by
  rcases h q with hsame | ⟨_, _, _, _, -, hold, hnew⟩
  · rw [hsame]
  · rw [hold, hnew]
    simp

/-- A disk stays proper when it frays. -/
theorem Frayed.proper (h : Frayed d e) (hd : d.Proper) : e.Proper := by
  intro q hq hsome
  rw [h.directory_iff]
  apply hd q hq
  rcases h q with hsame | ⟨_, _, _, _, -, hold, -⟩
  · rwa [← hsame]
  · rw [hold]
    rfl

/-- If no file is on the way to a path then, none is now. -/
theorem Frayed.clear (h : Frayed d e) (hp : d.Clear p) : e.Clear p := by
  intro q hq content hfile
  rcases h q with hsame | ⟨_, _, old, _, -, hold, -⟩
  · exact hp q hq content (hsame ▸ hfile)
  · exact hp q hq old hold

namespace Action

variable {α β : Type} {blind : Path → Prop} {P : Path → Prop}

/-- Any call may fail. To look at a path never fails, but where it is `blind` it may show
nothing. -/
abbrev failing (blind : Path → Prop) : Mishaps := ⟨blind, Change.Leaves, False⟩

/-- The action can end with this answer and on this disk if calls may fail. -/
abbrev Ends (blind : Path → Prop) (x : Action α) (d : Disk) (a : α) (e : Disk) : Prop :=
  Fares (failing blind) x d (some a) e

/-- Whether or not calls fail, an action leaves what is at the other paths. -/
theorem Within.at?_of_ends {x : Action α} {a : α} (hx : x.Within P) (h : Ends blind x d a e)
    (hq : ¬ P q) : e.at? q = d.at? q := by
  unfold Ends at h
  generalize some a = o at h
  induction h with
  | cut _ | done => rfl
  | read _ ih | readFails _ _ ih | list _ ih | listFails _ _ ih | look _ ih | lookFails _ _ ih
  | count _ ih => exact ih (hx _)
  | change hc _ ih =>
    rw [ih (hx.2 _)]
    exact at?_of_apply hc fun ht => hq (hx.1 q ht)
  | refused _ _ ih => exact ih (hx.2 _)
  | changeFails _ hc _ ih =>
    rw [ih (hx.2 _)]
    cases hc with
    | unmade => rfl
    | made hc => exact at?_of_apply hc fun ht => hq (hx.1 q ht)
    | torn hc => exact at?_of_apply hc fun ht => hq (hx.1 q ht)

/-! ## Actions that stop when a call fails -/

/-- The action is over, with a fault that is not about a missing key. -/
def Failed (x : Action (Except Fault α)) : Prop := ∃ f, f ≠ .noSuchKey ∧ x = done (.error f)

/-- Whenever a call fails the action is over, with a fault. It writes to drafts only. -/
def Stops (blind : Path → Prop) : Action (Except Fault α) → Prop
  | done _ => True
  | read _ next => (∀ f, f ≠ .notFound → (next (.error f)).Failed) ∧ ∀ r, (next r).Stops blind
  | list _ next => (∀ f, f ≠ .notFound → (next (.error f)).Failed) ∧ ∀ r, (next r).Stops blind
  | look p next => (blind p → (next none).Failed) ∧ ∀ r, (next r).Stops blind
  | count _ next => ∀ n, (next n).Stops blind
  | change c next =>
    (∀ f, f ≠ .notFound → (next (.error f)).Failed) ∧
      (∀ p content, c = .write p content → ∃ dir stem, p = draftPath dir stem) ∧
      ∀ r, (next r).Stops blind

/-- What has failed ends with its fault, and changes nothing more. -/
theorem Failed.ends {x : Action (Except Fault α)} {r : Except Fault α} (hx : x.Failed)
    (h : Ends blind x d r e) : (∃ f, f ≠ .noSuchKey ∧ r = .error f) ∧ e = d := by
  obtain ⟨f, hf, rfl⟩ := hx
  obtain ⟨rfl, rfl⟩ := fares_done h
  exact ⟨⟨f, hf, rfl⟩, rfl⟩

/-- An action that stops either meets no failing call, or ends with a fault on a disk that it would
have passed through, but for the bytes of a draft. -/
theorem Stops.ends {x : Action (Except Fault α)} {r : Except Fault α} (hx : x.Stops blind)
    (h : Ends blind x d r e) :
    x.run d = (r, e) ∨
      (∃ f, f ≠ .noSuchKey ∧ r = .error f) ∧ ∃ c ∈ x.trail d, Frayed c e := by
  unfold Ends at h
  generalize hr : some r = o at h
  induction h with
  | cut _ => cases hr
  | done =>
    cases hr
    exact .inl rfl
  | read _ ih | list _ ih | look _ ih => exact ih (hx.2 _) hr
  | count _ ih => exact ih (hx _) hr
  | @readFails p next d e _ f hf h _ | @listFails p next d e _ f hf h _ =>
    obtain ⟨hfault, rfl⟩ := (hx.1 f hf).ends (hr ▸ h)
    exact .inr ⟨hfault, _, mem_trail_self _ _, .refl _⟩
  | lookFails hp h _ =>
    obtain ⟨hfault, rfl⟩ := (hx.1 hp).ends (hr ▸ h)
    exact .inr ⟨hfault, _, mem_trail_self _ _, .refl _⟩
  | refused hc _ ih =>
    rw [run, trail, hc]
    exact ih (hx.2.2 _) hr
  | change hc _ ih =>
    rw [run, trail, hc]
    rcases ih (hx.2.2 _) hr with hrun | ⟨hfault, c, hmem, hfrayed⟩
    · exact .inl hrun
    · exact .inr ⟨hfault, c, List.mem_cons_of_mem _ hmem, hfrayed⟩
  | @changeFails c next d d' e _ f hf hc h _ =>
    obtain ⟨hfault, rfl⟩ := (hx.1 f hf).ends (hr ▸ h)
    refine .inr ⟨hfault, ?_⟩
    cases hc with
    | unmade => exact ⟨_, mem_trail_self _ _, .refl _⟩
    | made hc =>
      refine ⟨_, ?_, .refl _⟩
      rw [trail, hc]
      exact List.mem_cons_of_mem _ (mem_trail_self _ _)
    | torn hc =>
      obtain ⟨dir, stem, rfl⟩ := hx.2.1 _ _ rfl
      exact ⟨_, mem_trail_self _ _, .of_write hc⟩

/-- A part that stops, followed by one that stops and hands on faults, stops. -/
theorem Stops.bind {x : Action (Except Fault α)} {f : Except Fault α → Action (Except Fault β)}
    (hx : x.Stops blind) (herror : ∀ g, f (.error g) = done (.error g))
    (hok : ∀ a, (f (.ok a)).Stops blind) : (x.bind f).Stops blind := by
  have hfailed : ∀ y : Action (Except Fault α), y.Failed → (y.bind f).Failed := by
    rintro _ ⟨g, hg, rfl⟩
    exact ⟨g, hg, herror g⟩
  induction x with
  | done r =>
    cases r with
    | error g =>
      show Stops blind (f (.error g))
      rw [herror]
      exact trivial
    | ok a => exact hok a
  | read p next ih | list p next ih =>
    exact ⟨fun g hg => hfailed _ (hx.1 g hg), fun r => ih r (hx.2 r)⟩
  | look p next ih => exact ⟨fun hp => hfailed _ (hx.1 hp), fun r => ih r (hx.2 r)⟩
  | count p next ih => exact fun n => ih n (hx n)
  | change c next ih =>
    exact ⟨fun g hg => hfailed _ (hx.1 g hg), hx.2.1, fun r => ih r (hx.2.2 r)⟩

/-- Where no call fails, an action ends as it ensures. -/
theorem Ensures.exists_ends {x : Action α} {C : Disk → Prop} {Q : α → Disk → Prop}
    (h : x.Ensures C Q d) : ∃ a e, Ends blind x d a e ∧ Q a e :=
  ⟨_, _, fares_run x d, h.2⟩

/-- Where calls fail, what an action ensures of its answer holds, or what it ensures of all disks on
the way. -/
theorem Ensures.ends {x : Action (Except Fault α)} {C : Disk → Prop}
    {Q : Except Fault α → Disk → Prop} {r : Except Fault α} (h : x.Ensures C Q d)
    (hx : x.Stops blind) (hC : ∀ c e, C c → Frayed c e → C e) (hends : Ends blind x d r e) :
    Q r e ∨ (∃ f, f ≠ .noSuchKey ∧ r = .error f) ∧ C e := by
  rcases hx.ends hends with hrun | ⟨hfault, c, hmem, hfrayed⟩
  · have hQ := h.2
    rw [hrun] at hQ
    exact .inl hQ
  · exact .inr ⟨hfault, hC c e (h.1 c hmem) hfrayed⟩

end Action

namespace Attempt

variable {α β : Type} {blind : Path → Prop}

/-- Whenever a call fails the attempt is over, with a fault. It writes to drafts only. -/
def Stops (blind : Path → Prop) (x : Attempt α) : Prop := Action.Stops blind x.run

theorem stops_pure (a : α) : (pure a : Attempt α).Stops blind := trivial

theorem stops_lift (r : Except Fault α) : (liftM r : Attempt α).Stops blind := trivial

theorem Stops.bind {x : Attempt α} {f : α → Attempt β} (hx : x.Stops blind)
    (hf : ∀ a, (f a).Stops blind) : (x >>= f).Stops blind :=
  Action.Stops.bind hx (fun _ => rfl) hf

theorem stops_exists? (hp : ¬ blind p) : (exists? p).Stops blind :=
  ⟨fun h => absurd h hp, fun _ => trivial⟩

theorem stops_count (p : Path) : (count p).Stops blind := fun _ => trivial

theorem stops_list (p : Path) : (list p).Stops blind :=
  ⟨fun f _ => ⟨.io (.disk f), by simp, rfl⟩, fun _ => trivial⟩

/-- A read that fails is over: it is not taken for a file that is missing. -/
theorem stops_read? (p : Path) : (read? p).Stops blind := by
  refine ⟨fun f hf => ⟨.io (.disk f), by simp, ?_⟩, fun _ => trivial⟩
  cases f with
  | notFound => exact absurd rfl hf
  | alreadyExists | notADirectory | isADirectory | nameTooLong | device | other _ => rfl

theorem stops_discard_unlink (p : Path) : (discard (.unlink p)).Stops blind := by
  refine ⟨fun f hf => ⟨.io (.disk f), by simp, ?_⟩, by simp, fun _ => trivial⟩
  cases f with
  | notFound => exact absurd rfl hf
  | alreadyExists | notADirectory | isADirectory | nameTooLong | device | other _ => rfl

/-- A single change stops, if it writes to nothing but a draft. -/
theorem stops_change {c : Change}
    (hc : ∀ p content, c = .write p content → ∃ dir stem, p = draftPath dir stem) :
    (change c).Stops blind :=
  ⟨fun f _ => ⟨.io (.disk f), by simp, rfl⟩, hc, fun _ => trivial⟩

/-- To write a file stops: what is written is its draft. -/
theorem stops_writeEntry (dir : Path) (stem : String) (content : Bytes) :
    (writeEntry dir stem content).Stops blind := by
  refine Stops.bind (stops_change (by simp)) fun _ => Stops.bind (stops_change ?_) fun _ =>
    stops_change (by simp)
  rintro p other ⟨⟩
  exact ⟨dir, stem, rfl⟩

end Attempt

end Disk

end RingStore
