import RingStore.Proofs.Queue.WakeUps

/-!
# Every item leaves once, and in turn

Items leave a queue in three ways: a consumer gets one, a caller that does not wait takes one, or
all of them are dropped together. A `Ledger` keeps the books: what was appended, and what left, in
what order and to whom. However the steps of producers, consumers and callers are mixed, what has
left and what is still queued are together what was appended, in the same order (`Ledger.Balanced`).
It takes no more than the oldest item leaving first: consumers may be woken for nothing, find the
queue emptied by somebody else, and go back to wait.
-/

namespace RingStore

namespace Queue

variable {α : Type} {q q' : Queue α} {i j : Nat}

/-- A consumer in line is woken, although there is no call for it. -/
def rouse (q : Queue α) (i : Nat) : Queue α :=
  match q.stages[i]? with
  | some .waiting => { q with line := q.line.erase i }.setStage i .woken
  | _ => q

/-! ## What a step takes out -/

/-- The item that a consumer at that stage was served with. -/
def Stage.item? : Stage α → Option α
  | .served item => some item
  | .fresh | .looking | .leaving | .waiting | .woken => none

theorem served?_eq (q : Queue α) (i : Nat) : q.served? i = q.stages[i]?.bind Stage.item? := by
  unfold served?
  cases q.stages[i]? with
  | none => rfl
  | some s => cases s <;> rfl

theorem served?_of_stage {s : Stage α} (hstage : q.stages[i]? = some s) :
    q.served? i = s.item? := by
  rw [served?_eq, hstage, Option.bind_some]

/-- A consumer that gets an item is served, and nobody else. -/
theorem served?_setStage {s : Stage α} (hstage : q.stages[i]? = some s) (t : Stage α) (j : Nat) :
    (q.setStage i t).served? j = if j = i then t.item? else q.served? j := by
  by_cases hj : j = i
  · subst hj
    rw [if_pos rfl, served?_of_stage (getElem?_setStage_self hstage t)]
  · rw [if_neg hj, served?_eq, served?_eq, getElem?_setStage_of_ne (Ne.symm hj)]

/-- A change of stage that serves nobody. -/
theorem served?_setStage_of_none {s t : Stage α} (hstage : q.stages[i]? = some s)
    (hs : s.item? = none) (ht : t.item? = none) (j : Nat) :
    (q.setStage i t).served? j = q.served? j := by
  rw [served?_setStage hstage]
  split
  · subst j
    rw [ht, served?_of_stage hstage, hs]
  · rfl

/-- A consumer's step takes the oldest item out and serves the consumer with it, or leaves the items
and everybody's service as they are. -/
theorem Turn.takes (h : Turn q i q') :
    (q'.items = q.items ∧ q.served? i = none ∧ ∀ j, q'.served? j = q.served? j) ∨
      ∃ item, q.items = item :: q'.items ∧ q.served? i = none ∧
        ∀ j, q'.served? j = if j = i then some item else q.served? j := by
  cases h with
  | start hstage | miss hstage | again hstage =>
    exact .inl ⟨rfl, served?_of_stage hstage, served?_setStage_of_none hstage rfl rfl⟩
  | excuse hstage hpermit =>
    have hsame :=
      served?_setStage_of_none (q := { q with permit := false }) (t := .fresh) hstage rfl rfl
    exact .inl ⟨rfl, served?_of_stage hstage, hsame⟩
  | queue hstage hpermit =>
    have hsame := served?_setStage_of_none (q := { q with line := q.line ++ [i] }) (t := .waiting)
      hstage rfl rfl
    exact .inl ⟨rfl, served?_of_stage hstage, hsame⟩
  | @take item rest hstage hitems =>
    have hserved := served?_setStage (q := { q with items := rest }) hstage (.served item)
    exact .inr ⟨item, hitems, served?_of_stage hstage, hserved⟩

/-- To wake somebody takes nothing from the queue. -/
theorem items_wake (q : Queue α) : q.wake.items = q.items := by
  unfold wake
  split <;> rfl

theorem wake_of_not_owed (h : ¬ 0 < q.owed) : q.wake = q := by
  have hnone : q.owed = 0 := by omega
  unfold wake
  rw [hnone]

/-- A call serves nobody, and takes nothing back. -/
theorem Lined.served?_wake (h : q.Lined) (j : Nat) : q.wake.served? j = q.served? j := by
  by_cases howed : 0 < q.owed
  · rcases q.wake_cases howed with ⟨-, hwake⟩ | ⟨i, line, hline, hwake⟩
    · rw [hwake]
      rfl
    · have hstage : q.stages[i]? = some .waiting := (h.mem_iff i).1 (by simp [hline])
      rw [hwake]
      exact served?_setStage_of_none (q := { q with line, owed := q.owed - 1 }) hstage rfl rfl j
  · rw [wake_of_not_owed howed]

theorem served?_join (q : Queue α) (j : Nat) : q.join.served? j = q.served? j := by
  rw [served?_eq, served?_eq]
  show ((q.stages.push .fresh)[j]?).bind Stage.item? = _
  rw [Array.getElem?_push]
  split
  · subst j
    rw [Array.getElem?_eq_none (Nat.le_refl _)]
    rfl
  · rfl

/-- What becomes of a queue when a consumer is woken for nothing. -/
theorem rouse_cases (q : Queue α) (i : Nat) :
    q.rouse i = q ∨ q.stages[i]? = some .waiting ∧
      q.rouse i = { q with line := q.line.erase i }.setStage i .woken := by
  unfold rouse
  split
  · exact .inr ⟨by assumption, rfl⟩
  · exact .inl rfl

/-- To rouse somebody takes nothing from the queue. -/
theorem items_rouse (q : Queue α) (i : Nat) : (q.rouse i).items = q.items := by
  rcases q.rouse_cases i with heq | ⟨-, heq⟩ <;> rw [heq]
  rfl

/-- To rouse somebody serves nobody. -/
theorem served?_rouse (q : Queue α) (i j : Nat) : (q.rouse i).served? j = q.served? j := by
  rcases q.rouse_cases i with heq | ⟨hstage, heq⟩
  · rw [heq]
  · rw [heq]
    exact served?_setStage_of_none (q := { q with line := q.line.erase i }) hstage rfl rfl j

theorem Lined.rouse (h : q.Lined) (i : Nat) : (q.rouse i).Lined := by
  rcases q.rouse_cases i with heq | ⟨hstage, heq⟩
  · rw [heq]
    exact h
  · rw [heq]
    refine ⟨fun hpermit => ?_, h.nodup.erase i, fun j => ?_⟩
    · show q.line.erase i = []
      rw [h.permit hpermit, List.erase_nil]
    · refine Iff.trans ?_
        (waiting_setStage_iff (q := { q with line := q.line.erase i }) hstage).symm
      rw [line_setStage, h.nodup.mem_erase_iff, h.mem_iff]
      simp

/-! ## The ledger -/

/-- Who takes items out. -/
inductive Taker
  /-- The consumer of that number. -/
  | consumer (i : Nat)
  /-- A caller that does not wait. -/
  | passerby
  /-- A caller that drops whatever is queued. -/
  | drain
  deriving DecidableEq, Repr

/-- A queue, with what has come and gone. -/
structure Ledger (α : Type) where
  queue : Queue α
  /-- The items that were appended, in this order. -/
  pushed : List α
  /-- The items that have left, in this order, and who has taken them. -/
  left : List (Taker × α)
  /-- What those who dropped everything were told. -/
  dropped : List Nat

/-- A step of one of the calls on a queue, which holds the lock at most once. -/
inductive Act (α : Type)
  /-- A producer appends an item. -/
  | append (item : α)
  /-- A producer makes its wake-up call. -/
  | wake
  /-- A consumer joins. -/
  | join
  /-- A consumer takes its next step, if it can. -/
  | step (i : Nat)
  /-- A consumer that waits is woken for nothing. -/
  | rouse (i : Nat)
  /-- A caller takes the oldest item, if there is one. -/
  | tryPop
  /-- A caller drops all items. -/
  | drain
  deriving DecidableEq, Repr

namespace Ledger

/-- Nothing has come or gone. -/
def opening : Ledger α := ⟨empty, [], [], []⟩

/-- The books after the items have gone to somebody. -/
def hand (s : Ledger α) (taker : Taker) (items : List α) (q : Queue α) : Ledger α :=
  { s with queue := q, left := s.left ++ items.map (taker, ·) }

/-- A consumer takes its next step, if it can, and takes out what it is served with. -/
def consume (s : Ledger α) (i : Nat) : Ledger α :=
  match s.queue.step? i with
  | some q => s.hand (.consumer i) (q.served? i).toList q
  | none => s

/-- A caller takes out what it is answered. -/
def tryPop (s : Ledger α) : Ledger α :=
  s.hand .passerby s.queue.tryPop.1.toList s.queue.tryPop.2

/-- A caller drops all items, and is told how many. -/
def drain (s : Ledger α) : Ledger α :=
  { s.hand .drain s.queue.items s.queue.drain.2 with dropped := s.dropped ++ [s.queue.drain.1] }

/-- The books after a step. -/
def act (s : Ledger α) : Act α → Ledger α
  | .append item => { s with queue := s.queue.append item, pushed := s.pushed ++ [item] }
  | .wake => { s with queue := s.queue.wake }
  | .join => { s with queue := s.queue.join }
  | .step i => s.consume i
  | .rouse i => { s with queue := s.queue.rouse i }
  | .tryPop => s.tryPop
  | .drain => s.drain

/-- The books after the steps of any calls, in that order. -/
def actAll (s : Ledger α) (acts : List (Act α)) : Ledger α := acts.foldl act s

/-- The items that somebody has taken. -/
def takenBy (s : Ledger α) (taker : Taker) : List α :=
  (s.left.filter (·.1 = taker)).map Prod.snd

/-- The items that left to be used. -/
def delivered (s : Ledger α) : List (Taker × α) := s.left.filter (·.1 ≠ .drain)

/-- Nothing is lost, nothing comes twice, and nothing is overtaken. -/
structure Balanced (s : Ledger α) : Prop where
  /-- What has left and what is queued are what was appended, in the same order. -/
  order : s.left.map Prod.snd ++ s.queue.items = s.pushed
  /-- A consumer has taken the item that it returned, if it has returned, and nothing else. -/
  consumers : ∀ i, s.takenBy (.consumer i) = (s.queue.served? i).toList
  /-- Those who dropped everything were told of as many items as they have taken. -/
  drains : s.dropped.sum = (s.takenBy .drain).length
  lined : s.queue.Lined

variable {s : Ledger α} {taker : Taker} {items : List α}

/-- What is handed over is with who took it. -/
theorem takenBy_hand_self (s : Ledger α) (taker : Taker) (items : List α) (q : Queue α) :
    (s.hand taker items q).takenBy taker = s.takenBy taker ++ items := by
  unfold takenBy hand
  rw [List.filter_append, List.map_append, List.filter_map]
  simp [Function.comp_def]

/-- Nobody else has it. -/
theorem takenBy_hand_of_ne {other : Taker} (h : other ≠ taker) (items : List α) (q : Queue α) :
    (s.hand taker items q).takenBy other = s.takenBy other := by
  unfold takenBy hand
  rw [List.filter_append, List.map_append, List.filter_map]
  simp [Function.comp_def, h.symm]

/-- The oldest items go to somebody. -/
theorem Balanced.hand (h : s.Balanced) {dropped : List Nat}
    (hitems : s.queue.items = items ++ q.items)
    (hserved : ∀ i, (q.served? i).toList =
      (s.queue.served? i).toList ++ if taker = .consumer i then items else [])
    (hdropped : dropped.sum = s.dropped.sum + if taker = .drain then items.length else 0)
    (hlined : q.Lined) : Balanced { s.hand taker items q with dropped } := by
  have htaken : ∀ other, (s.hand taker items q).takenBy other =
      s.takenBy other ++ if taker = other then items else [] := by
    intro other
    by_cases hother : taker = other
    · subst hother
      rw [if_pos rfl, takenBy_hand_self]
    · rw [if_neg hother, List.append_nil, takenBy_hand_of_ne (Ne.symm hother)]
  refine ⟨?_, fun i => ?_, ?_, hlined⟩
  · have hsnd : (items.map (taker, ·)).map Prod.snd = items := by
      rw [List.map_map]
      exact List.map_id _
    show (s.left ++ items.map (taker, ·)).map Prod.snd ++ q.items = s.pushed
    rw [List.map_append, hsnd, List.append_assoc, ← hitems, h.order]
  · show (s.hand taker items q).takenBy (.consumer i) = (q.served? i).toList
    rw [htaken, h.consumers, hserved]
  · show dropped.sum = ((s.hand taker items q).takenBy .drain).length
    rw [htaken, List.length_append, hdropped, h.drains]
    split <;> rfl

/-- A step that neither brings nor takes items and serves nobody. -/
theorem Balanced.of_same (h : s.Balanced) (hitems : q.items = s.queue.items)
    (hserved : ∀ i, q.served? i = s.queue.served? i) (hlined : q.Lined) :
    Balanced { s with queue := q } := by
  refine ⟨?_, fun i => ?_, h.drains, hlined⟩
  · rw [hitems]
    exact h.order
  · rw [hserved]
    exact h.consumers i

/-- A step of a consumer leaves the accounts in balance. -/
theorem Balanced.consume (h : s.Balanced) (i : Nat) : (s.consume i).Balanced := by
  unfold Ledger.consume
  cases hstep : s.queue.step? i with
  | none => exact h
  | some q =>
    have hturn := turn_of_step? hstep
    have hlined := h.lined.turn hturn
    rcases hturn.takes with ⟨hitems, hnone, hserved⟩ | ⟨item, hitems, hnone, hserved⟩
    · have hnobody : q.served? i = none := (hserved i).trans hnone
      refine h.hand (by simp [hnobody, hitems]) (fun j => ?_) (by simp) hlined
      simp [hnobody, hserved]
    · have hitem : q.served? i = some item := by rw [hserved, if_pos rfl]
      refine h.hand (by simp [hitem, hitems]) (fun j => ?_) (by simp) hlined
      by_cases hj : j = i
      · subst hj
        simp [hitem, hnone]
      · simp [hserved, hj, Ne.symm hj]

theorem Balanced.tryPop (h : s.Balanced) : s.tryPop.Balanced := by
  unfold Ledger.tryPop Queue.tryPop
  cases hitems : s.queue.items with
  | nil => exact h.hand (by simp [hitems]) (by simp) (by simp) h.lined
  | cons item rest =>
    have hlined : Lined { s.queue with items := rest } :=
      ⟨h.lined.permit, h.lined.nodup, h.lined.mem_iff⟩
    exact h.hand (by simp [hitems]) (by simp [served?]) (by simp) hlined

theorem Balanced.drain (h : s.Balanced) : s.drain.Balanced := by
  have hlined : s.queue.drain.2.Lined := ⟨h.lined.permit, h.lined.nodup, h.lined.mem_iff⟩
  have hserved : ∀ i, s.queue.drain.2.served? i = s.queue.served? i := fun i => rfl
  exact h.hand (by simp [Queue.drain]) (by simp [hserved]) (by simp [Queue.drain]) hlined

theorem Balanced.append (h : s.Balanced) (item : α) : (s.act (.append item)).Balanced := by
  refine ⟨?_, h.consumers, h.drains, h.lined.permit, h.lined.nodup, h.lined.mem_iff⟩
  show s.left.map Prod.snd ++ (s.queue.items ++ [item]) = s.pushed ++ [item]
  rw [← List.append_assoc, h.order]

/-- Every step leaves the accounts in balance. -/
theorem Balanced.act (h : s.Balanced) (a : Act α) : (s.act a).Balanced := by
  cases a with
  | append item => exact h.append item
  | wake =>
    refine h.of_same (items_wake _) h.lined.served?_wake ?_
    by_cases howed : 0 < s.queue.owed
    · exact h.lined.wake howed
    · rw [wake_of_not_owed howed]
      exact h.lined
  | join => exact h.of_same rfl (served?_join _) h.lined.join
  | step i => exact h.consume i
  | rouse i => exact h.of_same (items_rouse _ i) (served?_rouse _ i) (h.lined.rouse i)
  | tryPop => exact h.tryPop
  | drain => exact h.drain

theorem balanced_opening : (opening : Ledger α).Balanced :=
  ⟨rfl, fun i => by simp [opening, takenBy, empty, served?], rfl, fun _ => rfl, List.nodup_nil,
    fun i => by simp [opening, empty]⟩

/-- However steps are mixed, the accounts stay in balance. -/
theorem Balanced.actAll (h : s.Balanced) (acts : List (Act α)) : (s.actAll acts).Balanced := by
  induction acts generalizing s with
  | nil => exact h
  | cons a acts ih => exact ih (h.act a)

/-- The items that are neither delivered nor queued are those that were dropped. -/
theorem length_left (s : Ledger α) :
    s.left.length = s.delivered.length + (s.takenBy .drain).length := by
  unfold delivered takenBy
  rw [List.length_map]
  have hsplit := List.length_eq_length_filter_add (l := s.left) fun x => decide (x.1 = .drain)
  simp only [ne_eq, decide_not] at hsplit ⊢
  omega

/-- However the steps of all calls are mixed, the items that have left, in the order in which they
left, and those that are still queued are the items that were appended, in the same order. The size
is the number of items that were appended less those that have left, what those who dropped
everything were told adds up to the items that are neither delivered nor queued, and what a consumer
returns is the only item that it has taken. -/
theorem left_append_items (acts : List (Act α)) :
    let s := opening.actAll acts
    s.left.map Prod.snd ++ s.queue.items = s.pushed ∧
      s.queue.size + s.left.length = s.pushed.length ∧
      s.dropped.sum + (s.delivered.length + s.queue.size) = s.pushed.length ∧
      ∀ i, s.takenBy (.consumer i) = (s.queue.served? i).toList := by
  intro s
  have h : s.Balanced := balanced_opening.actAll acts
  have hsize : s.queue.size + s.left.length = s.pushed.length := by
    have hlength := congrArg List.length h.order
    rw [List.length_append, List.length_map] at hlength
    rw [← hlength, Nat.add_comm]
    rfl
  refine ⟨h.order, hsize, ?_, h.consumers⟩
  have hleft := s.length_left
  have hdrains := h.drains
  omega

end Ledger

end Queue

end RingStore
