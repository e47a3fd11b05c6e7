import RingStore.Disk.Action
import RingStore.Proofs.Disk.Lookup

/-!
# The disks that an action passes through

A crash can come between any two changes of the disk. `Action.trail` lists the disks that an action
passes through, from the one it starts on to the one it ends on, so that a crash leaves one of them.
`Ensures` says what holds of all disks on the way and what holds of the answer and the disk in the
end, and goes through the calls of an action one after the other. An action that changes nothing
`Answers`, and an action `Within` some paths leaves all others alone.
-/

namespace RingStore

namespace Disk

namespace Action

variable {α β : Type} {d e : Disk} {q : Path} {P : Path → Prop}

/-- The disks that an action passes through. -/
def trail : Action α → Disk → List Disk
  | done _, d => [d]
  | read p next, d => (next (d.read p)).trail d
  | list p next, d => (next (d.list p)).trail d
  | look p next, d => (next ((d.at? p).map (· == .directory))).trail d
  | count p next, d => (next (d.names p).length).trail d
  | change c next, d =>
    match d.apply c with
    | .ok d' => d :: (next (.ok ())).trail d'
    | .error f => (next (.error f)).trail d

theorem trail_ne_nil (x : Action α) (d : Disk) : x.trail d ≠ [] := by
  induction x generalizing d with
  | done a => simp [trail]
  | read p next ih | list p next ih | look p next ih | count p next ih => exact ih _ d
  | change c next ih =>
    rw [trail]
    split
    · simp
    · exact ih _ d

/-- An action goes on from what the one before it left. -/
theorem run_bind (x : Action α) (f : α → Action β) (d : Disk) :
    (x.bind f).run d = (f (x.run d).1).run (x.run d).2 := by
  induction x generalizing d with
  | done a => rfl
  | read p next ih | list p next ih | look p next ih | count p next ih => exact ih _ d
  | change c next ih =>
    rw [bind, run, run]
    split
    · exact ih _ _
    · exact ih _ _

/-- An action that goes on after another passes through the disks of both. -/
theorem trail_bind (x : Action α) (f : α → Action β) (d : Disk) :
    (x.bind f).trail d = (x.trail d).dropLast ++ (f (x.run d).1).trail (x.run d).2 := by
  induction x generalizing d with
  | done a => simp [bind, trail, run]
  | read p next ih | list p next ih | look p next ih | count p next ih => exact ih _ d
  | change c next ih =>
    rw [bind, trail, trail, run]
    cases hc : d.apply c with
    | ok d' =>
      simp only
      rw [ih, List.dropLast_cons_of_ne_nil (trail_ne_nil _ _)]
      rfl
    | error f => exact ih _ _

theorem head?_trail (x : Action α) (d : Disk) : (x.trail d).head? = some d := by
  induction x generalizing d with
  | done a => rfl
  | read p next ih | list p next ih | look p next ih | count p next ih => exact ih _ d
  | change c next ih =>
    rw [trail]
    split
    · rfl
    · exact ih _ d

/-- The last disk on the way is the one that is left. -/
theorem getLast?_trail (x : Action α) (d : Disk) : (x.trail d).getLast? = some (x.run d).2 := by
  induction x generalizing d with
  | done a => rfl
  | read p next ih | list p next ih | look p next ih | count p next ih => exact ih _ d
  | change c next ih =>
    rw [trail, run]
    cases hc : d.apply c with
    | ok d' =>
      simp only
      rw [List.getLast?_cons_of_ne_nil (trail_ne_nil _ _)]
      exact ih _ _
    | error f => exact ih _ _

/-- The disk that an action starts on is on its trail. -/
theorem mem_trail_self (x : Action α) (d : Disk) : d ∈ x.trail d :=
  List.mem_of_mem_head? (head?_trail x d)

/-- The disk that an action ends on is on its trail. -/
theorem run_mem_trail (x : Action α) (d : Disk) : (x.run d).2 ∈ x.trail d :=
  List.mem_of_getLast? (getLast?_trail x d)

/-- A disk on the way is on the way of the one action or of the other. -/
theorem mem_trail_bind (x : Action α) (f : α → Action β) (d : Disk) (h : e ∈ (x.bind f).trail d) :
    e ∈ x.trail d ∨ e ∈ (f (x.run d).1).trail (x.run d).2 := by
  rw [trail_bind, List.mem_append] at h
  exact h.imp_left fun hmem => List.dropLast_subset _ hmem

/-! ## What an action ensures -/

variable {C C' : Disk → Prop} {Q Q' : α → Disk → Prop} {R : β → Disk → Prop}

/-- On this disk the action passes only through disks that satisfy `C`, and ends with an answer and
a disk that satisfy `Q`. -/
def Ensures (x : Action α) (C : Disk → Prop) (Q : α → Disk → Prop) (d : Disk) : Prop :=
  (∀ e ∈ x.trail d, C e) ∧ Q (x.run d).1 (x.run d).2

theorem ensures_done {a : α} : (done a).Ensures C Q d ↔ C d ∧ Q a d := by
  simp [Ensures, trail, run]

/-- A change that succeeds. -/
theorem ensures_change {c : Change} {next : Except DiskFault Unit → Action α}
    (h : d.apply c = .ok e) :
    (change c next).Ensures C Q d ↔ C d ∧ (next (.ok ())).Ensures C Q e := by
  unfold Ensures
  rw [trail, run, h]
  simp [and_assoc]

/-- A change that fails. -/
theorem ensures_change_error {c : Change} {next : Except DiskFault Unit → Action α} {f : DiskFault}
    (h : d.apply c = .error f) :
    (change c next).Ensures C Q d ↔ (next (.error f)).Ensures C Q d := by
  unfold Ensures
  rw [trail, run, h]

/-- What holds on the whole way holds at its end. -/
theorem Ensures.last {x : Action α} (h : x.Ensures C Q d) : C (x.run d).2 :=
  h.1 _ (run_mem_trail x d)

theorem Ensures.first {x : Action α} (h : x.Ensures C Q d) : C d :=
  h.1 _ (mem_trail_self x d)

theorem Ensures.mono {x : Action α} (h : x.Ensures C Q d) (hC : ∀ e, C e → C' e)
    (hQ : ∀ a e, C e → Q a e → Q' a e) : x.Ensures C' Q' d :=
  ⟨fun e he => hC e (h.1 e he), hQ _ _ h.last h.2⟩

theorem Ensures.and {x : Action α} (h : x.Ensures C Q d) (h' : x.Ensures C' Q' d) :
    x.Ensures (fun e => C e ∧ C' e) (fun a e => Q a e ∧ Q' a e) d :=
  ⟨fun e he => ⟨h.1 e he, h'.1 e he⟩, h.2, h'.2⟩

/-- What an action ensures is what its first part ensures of the disk and the answer that the second
part goes on with. -/
theorem Ensures.bind {x : Action α} {f : α → Action β} (hx : x.Ensures C Q d)
    (hf : ∀ a e, C e → Q a e → (f a).Ensures C R e) : (x.bind f).Ensures C R d := by
  have hrest := hf _ _ hx.last hx.2
  refine ⟨fun e he => ?_, ?_⟩
  · rcases mem_trail_bind x f d he with h | h
    · exact hx.1 e h
    · exact hrest.1 e h
  · rw [run_bind]
    exact hrest.2

/-! ## Actions that change nothing -/

/-- On this disk the action changes nothing and answers `a`. -/
def Answers (x : Action α) (d : Disk) (a : α) : Prop :=
  x.trail d = [d] ∧ x.run d = (a, d)

theorem answers_done (a : α) (d : Disk) : (done a).Answers d a := ⟨rfl, rfl⟩

/-- A change that fails leaves the disk as it is. -/
theorem answers_change_error {c : Change} {next : Except DiskFault Unit → Action α} {f : DiskFault}
    {a : α} (h : d.apply c = .error f) (hnext : (next (.error f)).Answers d a) :
    (change c next).Answers d a := by
  unfold Answers
  rw [trail, run, h]
  exact hnext

theorem Answers.run_bind {x : Action α} {f : α → Action β} {a : α} (hx : x.Answers d a) :
    (x.bind f).run d = (f a).run d := by
  rw [Action.run_bind, hx.2]

theorem Answers.bind {x : Action α} {f : α → Action β} {a : α} {b : β} (hx : x.Answers d a)
    (hf : (f a).Answers d b) : (x.bind f).Answers d b := by
  refine ⟨?_, hx.run_bind.trans hf.2⟩
  rw [trail_bind, hx.1, hx.2]
  exact hf.1

theorem Answers.ensures {x : Action α} {a : α} (h : x.Answers d a) (hC : C d) (hQ : Q a d) :
    x.Ensures C Q d := by
  refine ⟨fun e he => ?_, ?_⟩
  · rw [h.1, List.mem_singleton] at he
    exact he ▸ hC
  · rw [h.2]
    exact hQ

/-- An action that leaves the disk alone adds nothing to the way. -/
theorem Answers.ensures_bind {x : Action α} {f : α → Action β} {a : α} (hx : x.Answers d a)
    (hf : (f a).Ensures C R d) : (x.bind f).Ensures C R d :=
  (hx.ensures (C := C) (Q := fun b e => b = a ∧ e = d) hf.first ⟨rfl, rfl⟩).bind (by
    rintro _ _ - ⟨rfl, rfl⟩
    exact hf)

/-! ## Actions within some paths -/

/-- The action changes the disk only at paths that satisfy `P`, whatever its calls meet. -/
def Within (P : Path → Prop) : Action α → Prop
  | done _ => True
  | read _ next => ∀ r, (next r).Within P
  | list _ next => ∀ r, (next r).Within P
  | look _ next => ∀ r, (next r).Within P
  | count _ next => ∀ n, (next n).Within P
  | change c next => (∀ q, c.Touches q → P q) ∧ ∀ r, (next r).Within P

theorem Within.bind {x : Action α} {f : α → Action β} (hx : x.Within P)
    (hf : ∀ a, (f a).Within P) : (x.bind f).Within P := by
  induction x with
  | done a => exact hf a
  | read p next ih | list p next ih | look p next ih | count p next ih => exact fun r => ih r (hx r)
  | change c next ih => exact ⟨hx.1, fun r => ih r (hx.2 r)⟩

theorem Within.mono {P' : Path → Prop} {x : Action α} (hx : x.Within P) (h : ∀ q, P q → P' q) :
    x.Within P' := by
  induction x with
  | done a => exact trivial
  | read p next ih | list p next ih | look p next ih | count p next ih => exact fun r => ih r (hx r)
  | change c next ih => exact ⟨fun q hq => h q (hx.1 q hq), fun r => ih r (hx.2 r)⟩

/-- An action leaves what is at the other paths. -/
theorem Within.at?_of_mem_trail {x : Action α} (hx : x.Within P) (he : e ∈ x.trail d) (hq : ¬ P q) :
    e.at? q = d.at? q := by
  induction x generalizing d with
  | done a =>
    obtain rfl : e = d := by simpa [trail] using he
    rfl
  | read p next ih | list p next ih | look p next ih | count p next ih => exact ih _ (hx _) he
  | change c next ih =>
    rw [trail] at he
    split at he
    · rename_i d' hc
      rcases List.mem_cons.1 he with rfl | he
      · rfl
      · rw [ih _ (hx.2 _) he]
        exact at?_of_apply hc fun ht => hq (hx.1 q ht)
    · exact ih _ (hx.2 _) he

/-- Every disk on the way is proper. -/
theorem proper_of_mem_trail {x : Action α} (h : d.Proper) (he : e ∈ x.trail d) : e.Proper := by
  induction x generalizing d with
  | done a =>
    obtain rfl : e = d := by simpa [trail] using he
    exact h
  | read p next ih | list p next ih | look p next ih | count p next ih => exact ih _ h he
  | change c next ih =>
    rw [trail] at he
    split at he
    · rename_i d' hc
      rcases List.mem_cons.1 he with rfl | he
      · exact h
      · exact ih _ (h.apply hc) he
    · exact ih _ h he

/-- Outside the paths of an action nothing differs on the whole way. -/
theorem Within.ensures {x : Action α} (hx : x.Within P) :
    x.Ensures (fun e => ∀ q, ¬ P q → e.at? q = d.at? q) (fun _ _ => True) d :=
  ⟨fun _ he _ hq => hx.at?_of_mem_trail he hq, trivial⟩

/-- From a proper disk an action passes through proper disks only. -/
theorem Ensures.mono_proper {x : Action α} (h : x.Ensures C Q d) (hd : d.Proper)
    (hC : ∀ e, e.Proper → C e → C' e) (hQ : ∀ a e, e.Proper → C e → Q a e → Q' a e) :
    x.Ensures C' Q' d :=
  ⟨fun e he => hC e (proper_of_mem_trail hd he) (h.1 e he),
    hQ _ _ (proper_of_mem_trail hd (run_mem_trail x d)) h.last h.2⟩

end Action

end Disk

end RingStore
