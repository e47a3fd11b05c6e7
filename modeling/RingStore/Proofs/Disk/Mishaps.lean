import RingStore.Proofs.Disk.Attempt

/-!
# Actions that meet with mishaps

Calls on the disk may fail, whatever is there, and an action may be cut off between two of them.
What can happen is said by `Mishaps`: where a look may show nothing, what a change that fails may
leave of the disk, and whether the action can be cut off at all. `Action.Fares` tells on which disks
an action can end then, and with which answers. A call that answers that nothing is there has not
failed.

The more may happen, the more ways there are to fare (`Fares.mono`); that nothing does is one of
them (`fares_run`).
-/

namespace RingStore

namespace Disk

variable {d e : Disk}

/-- What may happen to an action besides what it asks for. -/
structure Mishaps where
  /-- To look at the path may show nothing. -/
  blind : Path → Prop
  /-- A change of the first disk that fails may leave the second. -/
  leaves : Disk → Change → Disk → Prop
  /-- Actions may be cut off. -/
  cut : Prop

/-- All that the first lets happen may happen. -/
structure Mishaps.Within (m m' : Mishaps) : Prop where
  blind : ∀ p, m.blind p → m'.blind p
  leaves : ∀ d c e, m.leaves d c e → m'.leaves d c e
  cut : m.cut → m'.cut

namespace Action

variable {α β : Type} {m m' : Mishaps} {o : Option α}

/-- The action can end with this answer and on this disk. Who is cut off has no answer. -/
inductive Fares (m : Mishaps) : Action α → Disk → Option α → Disk → Prop
  | cut {x : Action α} {d : Disk} (h : m.cut) : Fares m x d none d
  | done {a : α} {d : Disk} : Fares m (done a) d (some a) d
  | read {p : Path} {next : Except DiskFault Bytes → Action α} {d e : Disk} {o : Option α}
    (h : Fares m (next (d.read p)) d o e) : Fares m (read p next) d o e
  | readFails {p : Path} {next : Except DiskFault Bytes → Action α} {d e : Disk} {o : Option α}
    {f : DiskFault} (hf : f ≠ .notFound) (h : Fares m (next (.error f)) d o e) :
    Fares m (read p next) d o e
  | list {p : Path} {next : Except DiskFault (List String) → Action α} {d e : Disk} {o : Option α}
    (h : Fares m (next (d.list p)) d o e) : Fares m (list p next) d o e
  | listFails {p : Path} {next : Except DiskFault (List String) → Action α} {d e : Disk}
    {o : Option α} {f : DiskFault} (hf : f ≠ .notFound) (h : Fares m (next (.error f)) d o e) :
    Fares m (list p next) d o e
  | look {p : Path} {next : Option Bool → Action α} {d e : Disk} {o : Option α}
    (h : Fares m (next ((d.at? p).map (· == .directory))) d o e) : Fares m (look p next) d o e
  | lookFails {p : Path} {next : Option Bool → Action α} {d e : Disk} {o : Option α}
    (hp : m.blind p) (h : Fares m (next none) d o e) : Fares m (look p next) d o e
  | count {p : Path} {next : Nat → Action α} {d e : Disk} {o : Option α}
    (h : Fares m (next (d.names p).length) d o e) : Fares m (count p next) d o e
  | change {c : Change} {next : Except DiskFault Unit → Action α} {d d' e : Disk} {o : Option α}
    (hc : d.apply c = .ok d') (h : Fares m (next (.ok ())) d' o e) : Fares m (change c next) d o e
  | refused {c : Change} {next : Except DiskFault Unit → Action α} {d e : Disk} {o : Option α}
    {f : DiskFault} (hc : d.apply c = .error f) (h : Fares m (next (.error f)) d o e) :
    Fares m (change c next) d o e
  | changeFails {c : Change} {next : Except DiskFault Unit → Action α} {d d' e : Disk}
    {o : Option α} {f : DiskFault} (hf : f ≠ .notFound) (hc : m.leaves d c d')
    (h : Fares m (next (.error f)) d' o e) : Fares m (change c next) d o e

/-- An action that is done changes nothing more. -/
theorem disk_of_fares_done {a : α} (h : Fares m (done a) d o e) : e = d := by
  cases h <;> rfl

theorem fares_done {a b : α} (h : Fares m (done a) d (some b) e) : b = a ∧ e = d := by
  cases h
  exact ⟨rfl, rfl⟩

theorem fares_done_pair {a a' : α} {b b' : β} (h : Fares m (done (a, b)) d (some (a', b')) e) :
    a' = a ∧ b' = b ∧ e = d := by
  obtain ⟨heq, rfl⟩ := fares_done h
  exact ⟨congrArg Prod.fst heq, congrArg Prod.snd heq, rfl⟩

/-- Nothing has to happen. -/
theorem fares_run (x : Action α) (d : Disk) : Fares m x d (some (x.run d).1) (x.run d).2 := by
  induction x generalizing d with
  | done a => exact .done
  | read p next ih => exact .read (ih _ d)
  | list p next ih => exact .list (ih _ d)
  | look p next ih => exact .look (ih _ d)
  | count p next ih => exact .count (ih _ d)
  | change c next ih =>
    rw [run]
    cases hc : d.apply c with
    | ok d' => exact .change hc (ih _ d')
    | error f => exact .refused hc (ih _ d)

theorem fares_of_run {x : Action α} {a : α} (h : x.run d = (a, e)) : Fares m x d (some a) e := by
  have hfares : Fares m x d (some (x.run d).1) (x.run d).2 := fares_run x d
  rwa [h] at hfares

/-- More may happen where more is allowed to. -/
theorem Fares.mono {x : Action α} (h : Fares m x d o e) (hm : m.Within m') : Fares m' x d o e := by
  induction h with
  | cut h => exact .cut (hm.cut h)
  | done => exact .done
  | read _ ih => exact .read ih
  | readFails hf _ ih => exact .readFails hf ih
  | list _ ih => exact .list ih
  | listFails hf _ ih => exact .listFails hf ih
  | look _ ih => exact .look ih
  | lookFails hp _ ih => exact .lookFails (hm.blind _ hp) ih
  | count _ ih => exact .count ih
  | change hc _ ih => exact .change hc ih
  | refused hc _ ih => exact .refused hc ih
  | changeFails hf hc _ ih => exact .changeFails hf (hm.leaves _ _ _ hc) ih

/-- What follows an action goes on where the action has ended. -/
theorem Fares.bind {x : Action α} {f : α → Action β} {a : α} {o : Option β} {c : Disk}
    (hx : Fares m x d (some a) c) (hf : Fares m (f a) c o e) : Fares m (x.bind f) d o e := by
  generalize ha : some a = answer at hx
  induction hx with
  | cut _ => cases ha
  | done =>
    cases ha
    exact hf
  | read _ ih => exact .read (ih hf ha)
  | readFails hfault _ ih => exact .readFails hfault (ih hf ha)
  | list _ ih => exact .list (ih hf ha)
  | listFails hfault _ ih => exact .listFails hfault (ih hf ha)
  | look _ ih => exact .look (ih hf ha)
  | lookFails hp _ ih => exact .lookFails hp (ih hf ha)
  | count _ ih => exact .count (ih hf ha)
  | change hc _ ih => exact .change hc (ih hf ha)
  | refused hc _ ih => exact .refused hc (ih hf ha)
  | changeFails hfault hc _ ih => exact .changeFails hfault hc (ih hf ha)

/-- An action that goes on after another ends where it ends after an end of the other. -/
theorem fares_bind {x : Action α} {f : α → Action β} {b : β} (h : Fares m (x.bind f) d (some b) e) :
    ∃ a c, Fares m x d (some a) c ∧ Fares m (f a) c (some b) e := by
  induction x generalizing d with
  | done a => exact ⟨a, d, .done, h⟩
  | read p next ih =>
    cases h with
    | read h =>
      obtain ⟨a, c, hx, hf⟩ := ih _ h
      exact ⟨a, c, .read hx, hf⟩
    | readFails hfault h =>
      obtain ⟨a, c, hx, hf⟩ := ih _ h
      exact ⟨a, c, .readFails hfault hx, hf⟩
  | list p next ih =>
    cases h with
    | list h =>
      obtain ⟨a, c, hx, hf⟩ := ih _ h
      exact ⟨a, c, .list hx, hf⟩
    | listFails hfault h =>
      obtain ⟨a, c, hx, hf⟩ := ih _ h
      exact ⟨a, c, .listFails hfault hx, hf⟩
  | look p next ih =>
    cases h with
    | look h =>
      obtain ⟨a, c, hx, hf⟩ := ih _ h
      exact ⟨a, c, .look hx, hf⟩
    | lookFails hp h =>
      obtain ⟨a, c, hx, hf⟩ := ih _ h
      exact ⟨a, c, .lookFails hp hx, hf⟩
  | count p next ih =>
    cases h with
    | count h =>
      obtain ⟨a, c, hx, hf⟩ := ih _ h
      exact ⟨a, c, .count hx, hf⟩
  | change c next ih =>
    cases h with
    | change hc h =>
      obtain ⟨a, c, hx, hf⟩ := ih _ h
      exact ⟨a, c, .change hc hx, hf⟩
    | refused hc h =>
      obtain ⟨a, c, hx, hf⟩ := ih _ h
      exact ⟨a, c, .refused hc hx, hf⟩
    | changeFails hfault hc h =>
      obtain ⟨a, c, hx, hf⟩ := ih _ h
      exact ⟨a, c, .changeFails hfault hc hx, hf⟩

/-- What changes that fail leave is proper if what they were to change was. -/
theorem Fares.proper {x : Action α} (h : Fares m x d o e)
    (hm : ∀ d c e, m.leaves d c e → d.Proper → e.Proper) (hd : d.Proper) : e.Proper := by
  induction h with
  | cut _ | done => exact hd
  | read _ ih | readFails _ _ ih | list _ ih | listFails _ _ ih | look _ ih | lookFails _ _ ih
  | count _ ih | refused _ _ ih => exact ih hd
  | change hc _ ih => exact ih (hd.apply hc)
  | changeFails _ hc _ ih => exact ih (hm _ _ _ hc hd)

end Action

namespace Attempt

variable {α : Type} {m : Mishaps}

/-- An attempt that changes nothing can end with its answer. -/
theorem Answers.fares {x : Attempt α} {r : Except Fault α} (h : x.Answers d r) :
    Action.Fares m x.run d (some r) d :=
  Action.fares_of_run h.2

/-- A read that fails for another reason than that nothing is there. -/
theorem fares_read?_failed {f : DiskFault} (hf : f ≠ .notFound) (p : Path) :
    Action.Fares m (read? p).run d (some (.error (.io (.disk f)))) d := by
  refine .readFails hf ?_
  cases f with
  | notFound => exact absurd rfl hf
  | alreadyExists | notADirectory | isADirectory | nameTooLong | device | other _ => exact .done

end Attempt

end Disk

end RingStore
