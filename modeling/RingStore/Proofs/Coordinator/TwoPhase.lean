import RingStore.Proofs.Coordinator.Course
import RingStore.Proofs.Ring.Cohort
import Mathlib.Data.Nat.Find

/-!
# The messages of a write

What a write sends, and what those who watch are told, to the last moment: every member of the
cohort is asked for its vote once, in ring order, whatever the others answered; then the decision is
told of; then it is sent to one member after the other, to each until it acknowledges for the first
time. All of it follows from the script, and so does the response.
-/

namespace RingStore

namespace Coordinator

open Course

namespace Script

/-- Every one of the members answers the request with a vote to carry it out. -/
def unanimous (script : Script) (cohort : List Member) (q : Request) : Bool :=
  cohort.all fun x => script x q 0 matches .ok .voteCommit

/-- The member acknowledges the request at the attempt of that number, counted from 0, and not
before. -/
structure FirstAck (script : Script) (x : Member) (q : Request) (n : Nat) : Prop where
  acknowledged : script x q n = .ok .ack
  before : ∀ k < n, script x q k ≠ .ok .ack

/-- What is seen of asking members for their votes. -/
def votes (script : Script) (cohort : List Member) (q : Request) : List Moment :=
  cohort.flatMap fun x => seen x q (script x q 0)

/-- What is seen of the attempts with numbers from `k` on, `count` in all, to put a request to a
member. -/
def attemptsFrom (script : Script) (x : Member) (q : Request) (k count : Nat) : List Moment :=
  (List.range' k count).flatMap fun i => seen x q (script x q i)

/-- What is seen of sending a decision to members, if that many attempts with each come before the
one that is acknowledged. -/
def deliveries (script : Script) (cohort : List Member) (q : Request) (tries : Member → Nat) :
    List Moment :=
  cohort.flatMap fun x => script.attemptsFrom x q 0 (tries x + 1)

/-- What is seen of a whole write. -/
def trace (script : Script) (cohort : List Member) (q : Request) (tries : Member → Nat) :
    List Moment :=
  script.votes cohort q ++ .notice .decided ::
    script.deliveries cohort (decisionRequest (script.unanimous cohort q)) tries

variable {script : Script} {cohort : List Member} {x : Member} {q : Request}

/-- A cohort is unanimous if the first try at each member is answered with a vote for COMMIT. -/
theorem unanimous_iff :
    script.unanimous cohort q = true ↔ ∀ x ∈ cohort, script x q 0 = .ok .voteCommit := by
  unfold unanimous
  rw [List.all_eq_true]
  refine forall₂_congr fun x _ => ?_
  split <;> simp_all

theorem FirstAck.unique {n n' : Nat} (h : script.FirstAck x q n) (h' : script.FirstAck x q n') :
    n = n' := by
  rcases Nat.lt_trichotomy n n' with hlt | heq | hlt
  · exact absurd h.acknowledged (h'.before n hlt)
  · exact heq
  · exact absurd h'.acknowledged (h.before n' hlt)

theorem attemptsFrom_zero (script : Script) (x : Member) (q : Request) (k : Nat) :
    script.attemptsFrom x q k 0 = [] := rfl

theorem attemptsFrom_succ (script : Script) (x : Member) (q : Request) (k count : Nat) :
    script.attemptsFrom x q k (count + 1) =
      seen x q (script x q k) ++ script.attemptsFrom x q (k + 1) count := by
  rw [attemptsFrom, List.range'_succ, List.flatMap_cons, attemptsFrom]

theorem exists_firstAck (h : ∃ k, script x q k = .ok .ack) : ∃ n, script.FirstAck x q n := by
  classical
  exact ⟨Nat.find h, Nat.find_spec h, fun _ hk => Nat.find_min h hk⟩

end Script

variable {script : Script} {c : Coordinator} {op : Operation} {cohort left : List Member}
  {unanimous commit : Bool} {h : List Moment} {x : Member} {q : Request} {n : Nat}

theorem ofOutcome_eq_answered {outcome : Except Fault Response} {r : Response} :
    Contact.ofOutcome outcome = .answered r ↔ outcome = .ok r := by
  cases outcome with
  | ok r' => simp [Contact.ofOutcome]
  | error f => cases f <;> simp [Contact.ofOutcome]

/-! ## Asking for votes -/

/-- A member that was not asked yet is asked, whatever the others answered. -/
theorem next_voting (hnew : attempts x op.request h = 0) :
    next script ⟨c, .write op (.voting cohort (x :: left) unanimous), h⟩ =
      ⟨c, .write op (.voting cohort left (unanimous && script.unanimous [x] op.request)),
        h ++ seen x op.request (script x op.request 0)⟩ := by
  have hvote : (Contact.ofOutcome (script x op.request 0) == .answered .voteCommit) =
      script.unanimous [x] op.request := by
    rw [Bool.eq_iff_iff, beq_iff_eq, ofOutcome_eq_answered, Script.unanimous_iff]
    simp
  rw [next_contact rfl rfl, hnew, ← hvote]
  rfl

/-- Every member of the cohort is asked once, and the votes are counted. -/
theorem reaches_voted (hnew : ∀ x ∈ left, attempts x op.request h = 0) (hnodup : left.Nodup) :
    Reaches script ⟨c, .write op (.voting cohort left unanimous), h⟩
      ⟨c, .write op (.voting cohort [] (unanimous && script.unanimous left op.request)),
        h ++ script.votes left op.request⟩ := by
  induction left generalizing unanimous h with
  | nil =>
    rw [Script.votes, List.flatMap_nil, List.append_nil, Script.unanimous, List.all_nil,
      Bool.and_true]
  | cons x left ih =>
    obtain ⟨hx, hleft⟩ := List.nodup_cons.1 hnodup
    have hstill : ∀ y ∈ left,
        attempts y op.request (h ++ seen x op.request (script x op.request 0)) = 0 := by
      intro y hy
      have hne : x ≠ y := fun heq => hx (heq ▸ hy)
      rw [attempts_append, attempts_seen, hnew y (List.mem_cons_of_mem _ hy),
        if_neg fun heq => hne heq.1]
    have hunanimous : script.unanimous (x :: left) op.request =
        (script.unanimous [x] op.request && script.unanimous left op.request) := by
      simp [Script.unanimous]
    refine Reaches.head ?_
    rw [next_voting (hnew x List.mem_cons_self), hunanimous, ← Bool.and_assoc, Script.votes,
      List.flatMap_cons, ← List.append_assoc]
    exact ih hstill hleft

/-! ## Sending the decision -/

/-- A member that acknowledges is told no more. -/
theorem next_acknowledged (htimes : attempts x (decisionRequest commit) h = n)
    (hack : script x (decisionRequest commit) n = .ok .ack) :
    next script ⟨c, .write op (.deciding commit (x :: left)), h⟩ =
      ⟨c, .write op (.deciding commit left),
        h ++ seen x (decisionRequest commit) (script x (decisionRequest commit) n)⟩ := by
  have hmet : Contact.ofOutcome (script x (decisionRequest commit) n) = .answered .ack :=
    ofOutcome_eq_answered.2 hack
  rw [next_contact rfl rfl, htimes, Writing.contacted, if_pos hmet]

/-- Whoever does not acknowledge the decision is sent it again, before anyone else. -/
theorem next_again (htimes : attempts x (decisionRequest commit) h = n)
    (hnot : script x (decisionRequest commit) n ≠ .ok .ack) :
    next script ⟨c, .write op (.deciding commit (x :: left)), h⟩ =
      ⟨c, .write op (.deciding commit (x :: left)),
        h ++ seen x (decisionRequest commit) (script x (decisionRequest commit) n)⟩ := by
  have hmet : Contact.ofOutcome (script x (decisionRequest commit) n) ≠ .answered .ack :=
    fun heq => hnot (ofOutcome_eq_answered.1 heq)
  rw [next_contact rfl rfl, htimes, Writing.contacted, if_neg hmet]

/-- The attempts up to the first that a member acknowledges are made one after the other. -/
theorem reaches_acknowledged {k d : Nat}
    (hfirst : script.FirstAck x (decisionRequest commit) (k + d))
    (htimes : attempts x (decisionRequest commit) h = k) :
    Reaches script ⟨c, .write op (.deciding commit (x :: left)), h⟩
      ⟨c, .write op (.deciding commit left),
        h ++ script.attemptsFrom x (decisionRequest commit) k (d + 1)⟩ := by
  induction d generalizing k h with
  | zero =>
    refine Reaches.head ?_
    rw [next_acknowledged htimes hfirst.acknowledged, Script.attemptsFrom_succ,
      Script.attemptsFrom_zero, List.append_nil]
  | succ d ih =>
    have hnot : script x (decisionRequest commit) k ≠ .ok .ack := hfirst.before k (by omega)
    have hlater : script.FirstAck x (decisionRequest commit) (k + 1 + d) := by
      rwa [Nat.add_right_comm]
    have htimes' : attempts x (decisionRequest commit)
        (h ++ seen x (decisionRequest commit) (script x (decisionRequest commit) k)) = k + 1 := by
      rw [attempts_append, attempts_seen, htimes, if_pos ⟨rfl, rfl⟩]
    refine Reaches.head ?_
    rw [next_again htimes hnot, Script.attemptsFrom_succ, ← List.append_assoc]
    exact ih hlater htimes'

theorem attempts_attemptsFrom_of_ne {y : Member} (hne : x ≠ y) (q : Request) (k count : Nat) :
    attempts y q (script.attemptsFrom x q k count) = 0 := by
  induction count generalizing k with
  | zero => rfl
  | succ count ih =>
    rw [Script.attemptsFrom_succ, attempts_append, attempts_seen, ih, if_neg fun heq => hne heq.1]

/-- Every member is told until it acknowledges for the first time. -/
theorem reaches_delivered {tries : Member → Nat}
    (hfirst : ∀ x ∈ left, script.FirstAck x (decisionRequest commit) (tries x))
    (hnew : ∀ x ∈ left, attempts x (decisionRequest commit) h = 0) (hnodup : left.Nodup) :
    Reaches script ⟨c, .write op (.deciding commit left), h⟩
      ⟨c, .write op (.deciding commit []),
        h ++ script.deliveries left (decisionRequest commit) tries⟩ := by
  induction left generalizing h with
  | nil =>
    rw [Script.deliveries, List.flatMap_nil, List.append_nil]
  | cons x left ih =>
    obtain ⟨hx, hleft⟩ := List.nodup_cons.1 hnodup
    have hfirst' : script.FirstAck x (decisionRequest commit) (0 + tries x) := by
      rw [Nat.zero_add]
      exact hfirst x List.mem_cons_self
    have hstill : ∀ y ∈ left, attempts y (decisionRequest commit)
        (h ++ script.attemptsFrom x (decisionRequest commit) 0 (tries x + 1)) = 0 := by
      intro y hy
      have hne : x ≠ y := fun heq => hx (heq ▸ hy)
      rw [attempts_append, hnew y (List.mem_cons_of_mem _ hy), attempts_attemptsFrom_of_ne hne]
    refine (reaches_acknowledged hfirst' (hnew x List.mem_cons_self)).trans ?_
    rw [Script.deliveries, List.flatMap_cons, ← List.append_assoc]
    exact ih (fun y hy => hfirst y (List.mem_cons_of_mem _ hy)) hstill hleft

/-! ## The whole write -/

theorem request_ne_decisionRequest (op : Operation) (commit : Bool) :
    op.request ≠ decisionRequest commit := by
  cases op <;> cases commit <;> exact fun heq => by cases heq

/-- Asking for votes is no attempt to send a decision. -/
theorem attempts_votes (script : Script) (cohort : List Member) (op : Operation) (commit : Bool)
    (x : Member) : attempts x (decisionRequest commit) (script.votes cohort op.request) = 0 := by
  induction cohort with
  | nil => rfl
  | cons y cohort ih =>
    rw [Script.votes, List.flatMap_cons, attempts_append, attempts_seen,
      if_neg fun heq => request_ne_decisionRequest op commit heq.2, Nat.zero_add]
    exact ih

/-- The state that a write ends in. -/
def Course.ended (script : Script) (c : Coordinator) (op : Operation) (tries : Member → Nat) :
    Course :=
  let commit := script.unanimous (c.cohort op.key) op.request
  { coordinator := if commit then c.settle op else c
    task := .write op (.finished (if commit then .success else .ofFault .generic))
    history := script.trace (c.cohort op.key) op.request tries }

/-- All votes are in, and those who watch are told so. -/
theorem next_voted (c : Coordinator) (op : Operation) (cohort : List Member) (unanimous : Bool)
    (h : List Moment) :
    next script ⟨c, .write op (.voting cohort [] unanimous), h⟩ =
      ⟨c, .write op (.deciding unanimous cohort), h ++ [.notice .decided]⟩ := rfl

theorem reaches_ended {tries : Member → Nat} (hring : c.ring.Ordered)
    (hfull : c.ring.isFull = true) (hfree : c.busy = false) (hcheck : op.check = .ok ())
    (hfirst : ∀ x ∈ c.cohort op.key, script.FirstAck x
      (decisionRequest (script.unanimous (c.cohort op.key) op.request)) (tries x)) :
    Reaches script (.ofWrite c op) (.ended script c op tries) := by
  have hnodup : (c.cohort op.key).Nodup := hring.nodup_cohort _ _
  have hfree' : { c with busy := false } = c := by rw [← hfree]
  -- the request for the votes
  refine (Reaches.of_advances (advances_voting hcheck hfull hfree)).trans ?_
  refine (reaches_voted (fun x _ => rfl) hnodup).trans ?_
  refine Reaches.head ?_
  rw [next_voted, List.nil_append, Bool.true_and]
  -- the decision
  refine (reaches_delivered hfirst (fun x _ => ?_) hnodup).trans ?_
  · rw [attempts_append, attempts_votes]
    rfl
  -- the end
  rw [Course.ended, Script.trace, List.append_assoc, List.singleton_append]
  cases script.unanimous (c.cohort op.key) op.request with
  | true =>
    have hend : { ({ c with busy := true } : Coordinator).settle op with busy := false } =
        c.settle op := congrArg (settle · op) hfree'
    have hsteps := advances_success { c with busy := true } op
    rw [hend] at hsteps
    exact .of_advances hsteps
  | false =>
    have hsteps := advances_dropped { c with busy := true } op
    have hend : { ({ c with busy := true } : Coordinator) with busy := false } = c := hfree'
    rw [hend] at hsteps
    exact .of_advances hsteps

/-! ## When the cache and the epoch change -/

theorem Writing.advance_of_ne_settling {stage : Writing} (c : Coordinator) (op : Operation)
    (hstage : stage ≠ .settling) :
    (stage.advance c op).1.cache = c.cache ∧ (stage.advance c op).1.epoch = c.epoch := by
  cases stage with
  | checking | entering =>
    simp only [Writing.advance]
    split <;> exact ⟨rfl, rfl⟩
  | voting asked left unanimous => cases left <;> exact ⟨rfl, rfl⟩
  | deciding commit left => cases left <;> cases commit <;> exact ⟨rfl, rfl⟩
  | settling => exact absurd rfl hstage
  | admission | routing | leaving r | finished r => exact ⟨rfl, rfl⟩

/-- The course of a write that leaves the cache and the epoch alone until the write is settled. -/
structure Course.Untouched (c : Coordinator) (op : Operation) (s : Course) : Prop where
  write : ∃ stage, s.task = .write op stage
  kept : s.task.settled = false → s.coordinator.cache = c.cache ∧ s.coordinator.epoch = c.epoch

/-- Before a write is settled it leaves the cache and the epoch alone. -/
theorem untouched_next {s : Course} (hs : s.Untouched c op) : (s.next script).Untouched c op := by
  obtain ⟨⟨stage, hstage⟩, hkept⟩ := hs
  rw [hstage] at hkept
  unfold next
  rw [hstage]
  split
  · refine ⟨⟨_, rfl⟩, fun hafter => ?_⟩
    have hne : stage ≠ .settling := by
      rintro rfl
      simp [Task.advance, Writing.advance, Task.settled] at hafter
    obtain ⟨hcache, hepoch⟩ := Writing.advance_of_ne_settling s.coordinator op hne
    have hbefore : (Task.write op stage).settled = false := by
      rcases Task.advance_epoch s.coordinator (.write op stage) with ⟨-, hsame⟩ | ⟨-, hbefore, -⟩
      · rw [← hsame]
        exact hafter
      · exact hbefore
    obtain ⟨hcache', hepoch'⟩ := hkept hbefore
    exact ⟨hcache.trans hcache', hepoch.trans hepoch'⟩
  · refine ⟨⟨_, rfl⟩, fun hafter => hkept ?_⟩
    rw [← Task.settled_contacted]
    exact hafter
  · exact ⟨⟨stage, hstage⟩, hstage ▸ hkept⟩
  · exact ⟨⟨stage, hstage⟩, hstage ▸ hkept⟩

theorem untouched_iterate (script : Script) (c : Coordinator) (op : Operation) (k : Nat) :
    ((next script)^[k] (.ofWrite c op)).Untouched c op := by
  induction k with
  | zero =>
    refine ⟨⟨.checking, ?_⟩, fun _ => ⟨rfl, rfl⟩⟩
    change Task.ofWrite op.request = _
    rw [Task.ofWrite, Operation.operation?_request]
  | succ k ih =>
    rw [Function.iterate_succ_apply']
    exact untouched_next ih

/-- Nothing more is seen of a write that is settled. -/
theorem settled_next (script : Script) {s : Course} (hs : s.task.settled = true) :
    (s.next script).task.settled = true ∧ (s.next script).history = s.history := by
  obtain ⟨c, t, h⟩ := s
  cases t with
  | write op stage =>
    cases stage with
    | leaving r => exact ⟨hs, List.append_nil _⟩
    | finished r => exact ⟨hs, rfl⟩
    | checking | admission | entering | routing | voting | deciding | settling => cases hs
  | read | register | survey | trying | finished => cases hs

theorem settled_iterate (script : Script) {s : Course} (hs : s.task.settled = true) (k : Nat) :
    ((next script)^[k] s).task.settled = true ∧ ((next script)^[k] s).history = s.history := by
  induction k with
  | zero => exact ⟨hs, rfl⟩
  | succ k ih =>
    obtain ⟨hsettled, hhistory⟩ := settled_next script ih.1
    rw [Function.iterate_succ_apply']
    exact ⟨hsettled, hhistory.trans ih.2⟩

/-- On the way of a write to its end, the cache and the epoch are as they were, or the decision was
to carry it out and has been acknowledged by everyone. -/
theorem kept_or_complete {tries : Member → Nat}
    (hreach : Reaches script (.ofWrite c op) (.ended script c op tries)) (k : Nat) :
    let s := (next script)^[k] (.ofWrite c op)
    s.coordinator.cache = c.cache ∧ s.coordinator.epoch = c.epoch ∨
      script.unanimous (c.cohort op.key) op.request = true ∧
        s.history = (Course.ended script c op tries).history := by
  intro s
  cases hsettled : s.task.settled with
  | false => exact .inl ((untouched_iterate script c op k).kept hsettled)
  | true =>
    -- a settled write stays settled, and nothing more is seen of it
    obtain ⟨n, hn⟩ := hreach.of_iterate rfl k
    obtain ⟨hstill, hhistory⟩ := settled_iterate script hsettled n
    rw [hn] at hstill hhistory
    refine .inr ⟨?_, hhistory.symm⟩
    by_contra hnot
    rw [Course.ended, Bool.eq_false_iff.2 hnot] at hstill
    exact absurd hstill (by simp [Task.settled_finished])

/-- A write within the limits, on a full ring and with no other write under way. The members that
hold the key are asked for their votes once each, in ring order; the decision is told of; it is to
carry the write out if everyone voted for that, and is sent to one member after the other, to each
until it acknowledges for the first time. For a connection that did not come about, and for nothing
else, those who watch are told of the member. The response is success if the write was carried out,
and otherwise a fault. The cache and the epoch stay as they were unless the write was carried
out. -/
theorem two_phase_commit {script : Script} {c : Coordinator} {op : Operation}
    (hring : c.ring.Ordered) (hfull : c.ring.isFull = true) (hfree : c.busy = false)
    (hcheck : op.check = .ok ())
    (hacks : ∀ x ∈ c.cohort op.key, ∃ k, script x
      (decisionRequest (script.unanimous (c.cohort op.key) op.request)) k = .ok .ack) :
    c.cohort op.key = (c.ring.walk (digest op.key).toInt).take c.settings.redundancy ∧
      (c.cohort op.key).Nodup ∧
      ∃ tries : Member → Nat,
        (∀ x ∈ c.cohort op.key, script.FirstAck x
          (decisionRequest (script.unanimous (c.cohort op.key) op.request)) (tries x)) ∧
        Reaches script (.ofWrite c op) (.ended script c op tries) ∧
        ∀ k, let s := (next script)^[k] (.ofWrite c op)
          s.history <+: (Course.ended script c op tries).history ∧
          (s.coordinator.cache = c.cache ∧ s.coordinator.epoch = c.epoch ∨
            script.unanimous (c.cohort op.key) op.request = true ∧
              s.history = (Course.ended script c op tries).history) := by
  refine ⟨hring.cohort_eq_take _ _, hring.nodup_cohort _ _, ?_⟩
  have htries : ∀ x, ∃ n, x ∈ c.cohort op.key → script.FirstAck x
      (decisionRequest (script.unanimous (c.cohort op.key) op.request)) n := by
    intro x
    by_cases hx : x ∈ c.cohort op.key
    · obtain ⟨n, hn⟩ := Script.exists_firstAck (hacks x hx)
      exact ⟨n, fun _ => hn⟩
    · exact ⟨0, fun hx' => absurd hx' hx⟩
  choose tries hfirst using htries
  have hreach := reaches_ended hring hfull hfree hcheck hfirst
  refine ⟨tries, hfirst, hreach, fun k => ⟨?_, kept_or_complete hreach k⟩⟩
  exact (hreach.of_iterate rfl k).history_le

/-- The second member votes and is told the decision over connections that break: the first does not
come about, and the third gives no answer. -/
def faltering : Script := fun x q times =>
  if q = .put "k" "v" then
    if x.id = 0 then .ok .voteCommit else .error (.connection "refused")
  else if x.id = 0 ∨ times = 1 then .ok .ack else .error (.io .earlyEnd)

/-- A write is dropped because the second member could not be reached, and everyone is told. -/
theorem two_phase_commit_of_faltering :
    ∃ (c : Coordinator) (s : Course) (x y : Member), c.ring = ⟨2, [x, y]⟩ ∧
      Reaches faltering (.ofWrite c (.put "k" "v")) s ∧ s.coordinator = c ∧
      s.task = .write (.put "k" "v") (.finished (.ofFault .generic)) ∧
      s.history = [.attempt x (.put "k" "v") (.ok .voteCommit),
        .attempt y (.put "k" "v") (.error (.connection "refused")), .notice (.unreachable y),
        .notice .decided, .attempt x .abort (.ok .ack), .attempt y .abort (.error (.io .earlyEnd)),
        .attempt y .abort (.ok .ack)] := by
  let x : Member := ⟨0, "localhost", 4001⟩
  let y : Member := ⟨1, "localhost", 4002⟩
  obtain ⟨cache, -⟩ := Cache.exists_create (show 0 < 4 by decide) (show 2 ≤ 4 by decide)
  let c : Coordinator := ⟨.standard, ⟨2, [x, y]⟩, cache, false, 0⟩
  have hcohort : c.cohort "k" = [x, y] := (by decide : Ring.cohort ⟨2, [x, y]⟩ "k" 2 = [x, y])
  have hdropped : faltering.unanimous (c.cohort "k") (.put "k" "v") = false := by
    rw [hcohort]
    rfl
  have hring : c.ring.Ordered := by
    change [x, y].Pairwise _
    decide
  have hacks : ∀ z ∈ c.cohort "k", ∃ k, faltering z
      (decisionRequest (faltering.unanimous (c.cohort "k") (.put "k" "v"))) k = .ok .ack := by
    intro z _
    rw [hdropped]
    exact ⟨1, by simp [faltering, decisionRequest]⟩
  have hx : faltering.FirstAck x .abort 0 := ⟨rfl, fun k hk => absurd hk (Nat.not_lt_zero k)⟩
  have hy : faltering.FirstAck y .abort 1 := by
    refine ⟨rfl, fun k hk => ?_⟩
    obtain rfl : k = 0 := by omega
    exact fun heq => by cases heq
  obtain ⟨-, -, tries, hfirst, hreach, -⟩ :=
    @two_phase_commit faltering c (.put "k" "v") hring rfl rfl (by decide) hacks
  have hmem : x ∈ c.cohort "k" ∧ y ∈ c.cohort "k" := by simp [hcohort]
  have hx' : tries x = 0 := (hfirst x hmem.1).unique (hdropped ▸ hx)
  have hy' : tries y = 1 := (hfirst y hmem.2).unique (hdropped ▸ hy)
  have hended : Course.ended faltering c (.put "k" "v") tries =
      ⟨c, .write (.put "k" "v") (.finished (.ofFault .generic)),
        faltering.votes [x, y] (.put "k" "v") ++ .notice .decided ::
          faltering.deliveries [x, y] .abort tries⟩ := by
    change (⟨if faltering.unanimous (c.cohort "k") (.put "k" "v") then _ else c, _,
      faltering.trace (c.cohort "k") (.put "k" "v") tries⟩ : Course) = _
    rw [Script.trace, hdropped, hcohort]
    rfl
  rw [hended] at hreach
  refine ⟨c, _, x, y, rfl, hreach, rfl, rfl, ?_⟩
  simp only [Script.deliveries, List.flatMap_cons, List.flatMap_nil, hx', hy']
  rfl

end Coordinator

end RingStore
