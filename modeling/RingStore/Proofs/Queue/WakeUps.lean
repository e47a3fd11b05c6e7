import RingStore.Queue
import Mathlib.Algebra.BigOperators.Group.List.Basic
import Mathlib.Algebra.GroupWithZero.Nat
import Mathlib.Logic.Relation

/-!
# Which wake-up calls get through

An append is followed by one wake-up call, and a call that finds nobody in line leaves a permit.
There is one permit at most, so a call that finds a permit does nothing. That is harmless as long as
somebody is about to look for items anyway. It is not when two consumers have found nothing and
neither has taken its place in line yet: one of them gets the permit, and the other goes to wait
although the second item is there.

A queue is at rest when no call is owed and no consumer can move. A call is wasted if it finds a
permit and two consumers on their way to the line, while the items outnumber the consumers that will
look and the calls that are owed. Without a wasted call, no queue at rest has both an item and a
consumer that waits; and after a wasted call, the queue can come to rest that way.
-/

namespace RingStore

namespace Queue

variable {α : Type} {q q' : Queue α} {i : Nat}

/-! ## Moves -/

/-- What those who are there already do: producers make the calls that they owe, and consumers take
their steps. -/
inductive Settles : Queue α → Queue α → Prop
  /-- A producer makes its call. -/
  | wake {q : Queue α} (howed : 0 < q.owed) : Settles q q.wake
  /-- A consumer takes a step. -/
  | step {q q' : Queue α} {i : Nat} (hstep : q.step? i = some q') : Settles q q'

/-- One move of a producer or a consumer, where calls are made in some states only. -/
inductive Move (calls : Queue α → Prop) : Queue α → Queue α → Prop
  /-- A producer appends an item. -/
  | append (q : Queue α) (item : α) : Move calls q (q.append item)
  /-- A consumer joins. -/
  | join (q : Queue α) : Move calls q q.join
  /-- A producer makes its call. -/
  | wake {q : Queue α} (howed : 0 < q.owed) (hcall : calls q) : Move calls q q.wake
  /-- A consumer takes a step. -/
  | step {q q' : Queue α} {i : Nat} (hstep : q.step? i = some q') : Move calls q q'

/-- What a queue can become, from nothing on. -/
def Reached (calls : Queue α → Prop) : Queue α → Prop := Relation.ReflTransGen (Move calls) empty

/-- Nobody who is there can move. -/
def AtRest (q : Queue α) : Prop := ∀ q', ¬ Settles q q'

/-- An item is queued, and yet a consumer waits. -/
def Stranded (q : Queue α) : Prop := q.items ≠ [] ∧ ∃ i : Nat, q.stages[i]? = some .waiting

/-- The step of a consumer, by the stage that it starts from. -/
inductive Turn (q : Queue α) (i : Nat) : Queue α → Prop
  | start (hstage : q.stages[i]? = some .fresh) : Turn q i (q.setStage i .looking)
  | take {item : α} {rest : List α} (hstage : q.stages[i]? = some .looking)
    (hitems : q.items = item :: rest) :
    Turn q i ({ q with items := rest }.setStage i (.served item))
  | miss (hstage : q.stages[i]? = some .looking) (hitems : q.items = []) :
    Turn q i (q.setStage i .leaving)
  | excuse (hstage : q.stages[i]? = some .leaving) (hpermit : q.permit = true) :
    Turn q i ({ q with permit := false }.setStage i .fresh)
  | queue (hstage : q.stages[i]? = some .leaving) (hpermit : q.permit = false) :
    Turn q i ({ q with line := q.line ++ [i] }.setStage i .waiting)
  | again (hstage : q.stages[i]? = some .woken) : Turn q i (q.setStage i .fresh)

theorem turn_of_step? (h : q.step? i = some q') : Turn q i q' := by
  unfold step? at h
  split at h
  case h_1 hstage =>
    obtain rfl := Option.some.inj h
    exact .start hstage
  case h_2 hstage =>
    unfold tryPop at h
    cases hitems : q.items with
    | nil =>
      simp only [hitems] at h
      obtain rfl := Option.some.inj h
      exact .miss hstage hitems
    | cons item rest =>
      simp only [hitems] at h
      obtain rfl := Option.some.inj h
      exact .take hstage hitems
  case h_3 hstage =>
    split at h
    case isTrue hpermit =>
      obtain rfl := Option.some.inj h
      exact .excuse hstage hpermit
    case isFalse hpermit =>
      obtain rfl := Option.some.inj h
      exact .queue hstage (Bool.eq_false_iff.2 hpermit)
  case h_4 hstage =>
    obtain rfl := Option.some.inj h
    exact .again hstage
  all_goals cases h

/-- A consumer that cannot move waits or is done, if it is there at all. -/
theorem stage_of_step?_eq_none (h : q.step? i = none) {s : Stage α}
    (hstage : q.stages[i]? = some s) :
    s = .waiting ∨ ∃ item, s = .served item := by
  unfold step? at h
  rw [hstage] at h
  cases s with
  | fresh | woken => cases h
  | looking => cases hitems : q.items <;> simp [tryPop, hitems] at h
  | leaving => cases hpermit : q.permit <;> simp [hpermit] at h
  | waiting => exact .inl rfl
  | served item => exact .inr ⟨item, rfl⟩

section Fields

variable (q : Queue α) (i : Nat) (s : Stage α)

@[simp] theorem permit_setStage : (q.setStage i s).permit = q.permit := rfl
@[simp] theorem line_setStage : (q.setStage i s).line = q.line := rfl
@[simp] theorem owed_setStage : (q.setStage i s).owed = q.owed := rfl

end Fields

/-! ## Counting consumers by their stages -/

/-- The consumers, each with the weight of its stage. -/
def tally (q : Queue α) (weight : Stage α → Nat) : Nat := (q.stages.toList.map weight).sum

theorem tally_setStage (weight : Stage α → Nat) {s : Stage α} (hstage : q.stages[i]? = some s)
    (t : Stage α) : (q.setStage i t).tally weight + weight s = q.tally weight + weight t := by
  unfold tally setStage
  rw [Array.toList_setIfInBounds]
  rw [← Array.getElem?_toList] at hstage
  generalize q.stages.toList = stages at hstage
  induction stages generalizing i with
  | nil => cases hstage
  | cons u stages ih =>
    cases i with
    | zero =>
      obtain rfl := Option.some.inj hstage
      simp only [List.set_cons_zero, List.map_cons, List.sum_cons]
      omega
    | succ i =>
      have hrest := ih hstage
      simp only [List.set_cons_succ, List.map_cons, List.sum_cons]
      omega

theorem tally_join (q : Queue α) (weight : Stage α → Nat) :
    q.join.tally weight = q.tally weight + weight .fresh := by
  simp [tally, join]

/-- Nobody is at a stage with weight. -/
theorem tally_eq_zero {weight : Stage α → Nat}
    (h : ∀ (i : Nat) s, q.stages[i]? = some s → weight s = 0) : q.tally weight = 0 := by
  refine List.sum_eq_zero fun n hn => ?_
  obtain ⟨s, hs, rfl⟩ := List.mem_map.1 hn
  obtain ⟨i, hi⟩ := List.mem_iff_getElem?.1 hs
  exact h i s (by rwa [← Array.getElem?_toList])

/-- The consumer is going to look for an item before it waits. -/
def Stage.seeks : Stage α → Nat
  | .fresh | .looking | .woken => 1
  | .leaving | .waiting | .served _ => 0

/-- The consumer found nothing, and has not taken its place in line. -/
def Stage.leaves : Stage α → Nat
  | .leaving => 1
  | .fresh | .looking | .woken | .waiting | .served _ => 0

/-- The consumers that are going to look. -/
def seekers (q : Queue α) : Nat := q.tally Stage.seeks

/-- The consumers that are on their way to the line. -/
def leavers (q : Queue α) : Nat := q.tally Stage.leaves

/-- How many steps a consumer may take before it waits or is done, unless a permit or a call sends
it back. -/
def Stage.ahead : Stage α → Nat
  | .waiting | .served _ => 0
  | .leaving => 1
  | .looking => 2
  | .fresh => 3
  | .woken => 4

/-- A bound on the moves until the queue is at rest. A permit sends one consumer back to the start,
and a call wakes a consumer or leaves a permit. -/
def ahead (q : Queue α) : Nat := q.tally Stage.ahead + 3 * q.permit.toNat + 5 * q.owed

/-! ## The line -/

/-- The consumers in line are those that wait, each once, and with a permit there is nobody in
line. -/
structure Lined (q : Queue α) : Prop where
  permit : q.permit = true → q.line = []
  nodup : q.line.Nodup
  mem_iff : ∀ i : Nat, i ∈ q.line ↔ q.stages[i]? = some .waiting

/-- What a queue's call changes, if it is owed. -/
theorem wake_cases (q : Queue α) (howed : 0 < q.owed) :
    q.line = [] ∧ q.wake = { q with permit := true, owed := q.owed - 1 } ∨
      ∃ i line, q.line = i :: line ∧
        q.wake = { q with line, owed := q.owed - 1 }.setStage i .woken := by
  obtain ⟨n, hn⟩ : ∃ n, q.owed = n + 1 := ⟨q.owed - 1, by omega⟩
  unfold wake
  cases hline : q.line with
  | nil => exact .inl ⟨rfl, by simp [hn]⟩
  | cons i line => exact .inr ⟨i, line, rfl, by simp [hn]⟩

theorem getElem?_setStage_of_ne {j : Nat} (h : i ≠ j) (s : Stage α) :
    (q.setStage i s).stages[j]? = q.stages[j]? := by
  rw [setStage, Array.getElem?_setIfInBounds_ne h]

theorem getElem?_setStage_self {s : Stage α} (hstage : q.stages[i]? = some s) (t : Stage α) :
    (q.setStage i t).stages[i]? = some t := by
  obtain ⟨hlt, -⟩ := Array.getElem?_eq_some_iff.1 hstage
  rw [setStage, Array.getElem?_setIfInBounds_self_of_lt hlt]

/-- Who waits, after a consumer changed its stage. -/
theorem waiting_setStage_iff {s t : Stage α} (hstage : q.stages[i]? = some s) {j : Nat} :
    (q.setStage i t).stages[j]? = some .waiting ↔
      j = i ∧ t = .waiting ∨ j ≠ i ∧ q.stages[j]? = some .waiting := by
  by_cases hj : j = i
  · subst hj
    rw [getElem?_setStage_self hstage, Option.some.injEq]
    simp
  · rw [getElem?_setStage_of_ne (Ne.symm hj)]
    simp [hj]

/-- A change of stage that has nothing to do with the line. -/
theorem Lined.setStage (h : q.Lined) {s t : Stage α} (hstage : q.stages[i]? = some s)
    (hs : s ≠ .waiting) (ht : t ≠ .waiting) : (q.setStage i t).Lined where
  permit := h.permit
  nodup := h.nodup
  mem_iff j := by
    refine (h.mem_iff j).trans ?_
    rw [waiting_setStage_iff hstage]
    refine ⟨fun hj => .inr ⟨?_, hj⟩, ?_⟩
    · rintro rfl
      exact hs (Option.some.inj (hstage.symm.trans hj))
    · rintro (⟨-, rfl⟩ | ⟨-, hj⟩)
      · exact absurd rfl ht
      · exact hj

theorem Lined.turn (h : q.Lined) (hturn : Turn q i q') : q'.Lined := by
  cases hturn with
  | start hstage => exact h.setStage hstage (by simp) (by simp)
  | @take item rest hstage hitems =>
    have hrest : Lined { q with items := rest } := ⟨h.permit, h.nodup, h.mem_iff⟩
    exact hrest.setStage hstage (by simp) (by simp)
  | miss hstage hitems => exact h.setStage hstage (by simp) (by simp)
  | excuse hstage hpermit =>
    have hused : Lined { q with permit := false } := ⟨by simp, h.nodup, h.mem_iff⟩
    exact hused.setStage hstage (by simp) (by simp)
  | again hstage => exact h.setStage hstage (by simp) (by simp)
  | queue hstage hpermit =>
    have hnew : i ∉ q.line := by
      rw [h.mem_iff, hstage]
      simp
    refine ⟨fun htrue => ?_, ?_, fun j => ?_⟩
    · exact absurd (htrue.symm.trans hpermit) (by simp)
    · refine List.nodup_append.2 ⟨h.nodup, List.pairwise_singleton _ i, fun a ha b hb => ?_⟩
      obtain rfl := List.mem_singleton.1 hb
      rintro rfl
      exact hnew ha
    · refine Iff.trans ?_ (waiting_setStage_iff (q := { q with line := q.line ++ [i] }) hstage).symm
      rw [line_setStage, List.mem_append, List.mem_singleton, h.mem_iff]
      by_cases hj : j = i
      · simp [hj]
      · simp [hj]

theorem Lined.wake (h : q.Lined) (howed : 0 < q.owed) : q.wake.Lined := by
  rcases q.wake_cases howed with ⟨hline, hwake⟩ | ⟨i, line, hline, hwake⟩
  · rw [hwake]
    exact ⟨fun _ => hline, h.nodup, h.mem_iff⟩
  · rw [hwake]
    have hnodup := h.nodup
    rw [hline, List.nodup_cons] at hnodup
    have hstage : q.stages[i]? = some .waiting := (h.mem_iff i).1 (by simp [hline])
    refine ⟨fun hpermit => ?_, hnodup.2, fun j => ?_⟩
    · exact absurd ((h.permit hpermit).symm.trans hline) (by simp)
    · refine Iff.trans ?_
        (waiting_setStage_iff (q := { q with line, owed := q.owed - 1 }) hstage).symm
      have hmem := h.mem_iff j
      rw [hline, List.mem_cons] at hmem
      rw [line_setStage]
      by_cases hj : j = i
      · subst hj
        simp [hnodup.1]
      · simpa [hj] using hmem

theorem Lined.join (h : q.Lined) : q.join.Lined where
  permit := h.permit
  nodup := h.nodup
  mem_iff j := by
    refine (h.mem_iff j).trans ?_
    show _ ↔ (q.stages.push .fresh)[j]? = _
    rw [Array.getElem?_push]
    split
    · next hj => simp [hj]
    · exact Iff.rfl

theorem Lined.move {calls : Queue α → Prop} (h : q.Lined) (hmove : Move calls q q') : q'.Lined := by
  cases hmove with
  | append item => exact ⟨h.permit, h.nodup, h.mem_iff⟩
  | join => exact h.join
  | wake howed hcall => exact h.wake howed
  | step hstep => exact h.turn (turn_of_step? hstep)

theorem Reached.lined {calls : Queue α → Prop} (h : Reached calls q) : q.Lined := by
  induction h with
  | refl => exact ⟨fun _ => rfl, List.nodup_nil, fun i => by simp [empty]⟩
  | tail h hmove ih => exact ih.move hmove

/-! ## What the counts go through -/

/-- What a consumer's step does to the counts. -/
theorem Turn.counts (h : Turn q i q') : q'.owed = q.owed ∧
    ((q'.size = q.size ∧ q'.seekers = q.seekers ∧ q'.leavers = q.leavers ∧
        q'.permit.toNat = q.permit.toNat ∧ q'.line.length = q.line.length) ∨
      (q'.size + 1 = q.size ∧ q'.seekers + 1 = q.seekers ∧ q'.leavers = q.leavers ∧
        q'.permit.toNat = q.permit.toNat ∧ q'.line.length = q.line.length) ∨
      (q.size = 0 ∧ q'.size = 0 ∧ q'.seekers + 1 = q.seekers ∧ q'.leavers = q.leavers + 1 ∧
        q'.permit.toNat = q.permit.toNat ∧ q'.line.length = q.line.length) ∨
      (q'.size = q.size ∧ q'.seekers = q.seekers + 1 ∧ q'.leavers + 1 = q.leavers ∧
        q.permit.toNat = 1 ∧ q'.permit.toNat = 0 ∧ q'.line.length = q.line.length) ∨
      (q'.size = q.size ∧ q'.seekers = q.seekers ∧ q'.leavers + 1 = q.leavers ∧
        q.permit.toNat = 0 ∧ q'.permit.toNat = 0 ∧ q'.line.length = q.line.length + 1)) := by
  unfold seekers leavers
  cases h with
  | start hstage | again hstage =>
    have hseeks := tally_setStage Stage.seeks hstage
    have hleaves := tally_setStage Stage.leaves hstage
    refine ⟨rfl, .inl ⟨rfl, Nat.add_right_cancel (hseeks _), Nat.add_right_cancel (hleaves _), rfl,
      rfl⟩⟩
  | @take item rest hstage hitems =>
    have hseeks := tally_setStage (q := { q with items := rest }) Stage.seeks hstage (.served item)
    have hleaves :=
      tally_setStage (q := { q with items := rest }) Stage.leaves hstage (.served item)
    refine ⟨rfl, .inr (.inl ⟨?_, hseeks, hleaves, rfl, rfl⟩)⟩
    show rest.length + 1 = q.items.length
    rw [hitems, List.length_cons]
  | miss hstage hitems =>
    have hseeks := tally_setStage Stage.seeks hstage .leaving
    have hleaves := tally_setStage Stage.leaves hstage .leaving
    have hsize : q.size = 0 := congrArg List.length hitems
    exact ⟨rfl, .inr (.inr (.inl ⟨hsize, hsize, hseeks, hleaves, rfl, rfl⟩))⟩
  | excuse hstage hpermit =>
    have hseeks := tally_setStage (q := { q with permit := false }) Stage.seeks hstage .fresh
    have hleaves := tally_setStage (q := { q with permit := false }) Stage.leaves hstage .fresh
    exact ⟨rfl, .inr (.inr (.inr (.inl ⟨rfl, hseeks, hleaves, by rw [hpermit]; rfl, rfl, rfl⟩)))⟩
  | queue hstage hpermit =>
    have hseeks :=
      tally_setStage (q := { q with line := q.line ++ [i] }) Stage.seeks hstage .waiting
    have hleaves :=
      tally_setStage (q := { q with line := q.line ++ [i] }) Stage.leaves hstage .waiting
    refine ⟨rfl, .inr (.inr (.inr (.inr ⟨rfl, hseeks, hleaves, by rw [hpermit]; rfl,
      by rw [permit_setStage, hpermit]; rfl, ?_⟩)))⟩
    rw [line_setStage, List.length_append, List.length_singleton]

/-- What a call does to the counts: it wakes the first in line, or sees to it that there is a
permit. -/
theorem Lined.wake_counts (h : q.Lined) (howed : 0 < q.owed) :
    q.wake.size = q.size ∧ q.wake.owed + 1 = q.owed ∧ q.wake.leavers = q.leavers ∧
      ((q.line = [] ∧ q.wake.line.length = 0 ∧ q.wake.seekers = q.seekers ∧
          q.wake.permit.toNat = 1) ∨
        (q.wake.line.length + 1 = q.line.length ∧ q.wake.seekers = q.seekers + 1 ∧
          q.wake.permit.toNat = q.permit.toNat)) := by
  rcases q.wake_cases howed with ⟨hline, hwake⟩ | ⟨i, line, hline, hwake⟩
  · rw [hwake]
    exact ⟨rfl, Nat.sub_add_cancel howed, rfl,
      .inl ⟨hline, congrArg List.length hline, rfl, rfl⟩⟩
  · have hstage : q.stages[i]? = some .waiting := (h.mem_iff i).1 (by simp [hline])
    have hseeks :=
      tally_setStage (q := { q with line, owed := q.owed - 1 }) Stage.seeks hstage .woken
    have hleaves :=
      tally_setStage (q := { q with line, owed := q.owed - 1 }) Stage.leaves hstage .woken
    rw [hwake, hline]
    exact ⟨rfl, Nat.sub_add_cancel howed, hleaves, .inr ⟨rfl, hseeks, rfl⟩⟩

/-! ## Coming to rest -/

theorem Turn.ahead_lt (h : Turn q i q') : q'.ahead < q.ahead := by
  unfold ahead
  cases h with
  | start hstage =>
    have hahead := tally_setStage Stage.ahead hstage .looking
    simp only [Stage.ahead, permit_setStage, owed_setStage] at hahead ⊢
    omega
  | @take item rest hstage hitems =>
    have hahead := tally_setStage (q := { q with items := rest }) Stage.ahead hstage (.served item)
    have hsame : tally { q with items := rest } Stage.ahead = q.tally Stage.ahead := rfl
    simp only [Stage.ahead, permit_setStage, owed_setStage] at hahead ⊢
    omega
  | miss hstage hitems =>
    have hahead := tally_setStage Stage.ahead hstage .leaving
    simp only [Stage.ahead, permit_setStage, owed_setStage] at hahead ⊢
    omega
  | excuse hstage hpermit =>
    have hahead := tally_setStage (q := { q with permit := false }) Stage.ahead hstage .fresh
    have hsame : tally { q with permit := false } Stage.ahead = q.tally Stage.ahead := rfl
    simp only [Stage.ahead, permit_setStage, owed_setStage, hpermit, Bool.toNat_true,
      Bool.toNat_false] at hahead ⊢
    omega
  | queue hstage hpermit =>
    have hahead :=
      tally_setStage (q := { q with line := q.line ++ [i] }) Stage.ahead hstage .waiting
    have hsame : tally { q with line := q.line ++ [i] } Stage.ahead = q.tally Stage.ahead := rfl
    simp only [Stage.ahead, permit_setStage, owed_setStage] at hahead ⊢
    omega
  | again hstage =>
    have hahead := tally_setStage Stage.ahead hstage .fresh
    simp only [Stage.ahead, permit_setStage, owed_setStage] at hahead ⊢
    omega

theorem Lined.ahead_wake_lt (h : q.Lined) (howed : 0 < q.owed) : q.wake.ahead < q.ahead := by
  unfold ahead
  rcases q.wake_cases howed with ⟨-, hwake⟩ | ⟨i, line, hline, hwake⟩
  · have hsame : tally { q with permit := true, owed := q.owed - 1 } Stage.ahead =
      q.tally Stage.ahead := rfl
    rw [hwake, hsame]
    show _ + 3 * 1 + 5 * (q.owed - 1) < _
    omega
  · have hstage : q.stages[i]? = some .waiting := (h.mem_iff i).1 (by simp [hline])
    have hahead :=
      tally_setStage (q := { q with line, owed := q.owed - 1 }) Stage.ahead hstage .woken
    have hsame : tally { q with line, owed := q.owed - 1 } Stage.ahead = q.tally Stage.ahead := rfl
    rw [hwake]
    simp only [Stage.ahead, permit_setStage, owed_setStage] at hahead ⊢
    omega

theorem Lined.settles (h : q.Lined) (hsettles : Settles q q') : q'.Lined ∧ q'.ahead < q.ahead := by
  cases hsettles with
  | wake howed => exact ⟨h.wake howed, h.ahead_wake_lt howed⟩
  | step hstep => exact ⟨h.turn (turn_of_step? hstep), (turn_of_step? hstep).ahead_lt⟩

/-- Whatever those who are there do, and in whatever order, the queue comes to rest. -/
theorem Lined.exists_atRest (h : q.Lined) :
    ∃ q', Relation.ReflTransGen Settles q q' ∧ q'.AtRest := by
  induction hn : q.ahead using Nat.strongRecOn generalizing q with
  | ind n ih =>
    by_cases hrest : q.AtRest
    · exact ⟨q, .refl, hrest⟩
    · obtain ⟨next, hnext⟩ : ∃ next, Settles q next := by
        simpa only [AtRest, not_forall, not_not] using hrest
      obtain ⟨hlined, hless⟩ := h.settles hnext
      obtain ⟨last, hruns, hlast⟩ := ih next.ahead (hn ▸ hless) hlined rfl
      exact ⟨last, .head hnext hruns, hlast⟩

/-- At rest every call was made, and every consumer waits or is done. -/
theorem AtRest.counts (h : q.AtRest) : q.owed = 0 ∧ q.seekers = 0 ∧ q.leavers = 0 := by
  have hstuck : ∀ i : Nat, q.step? i = none := fun i =>
    Option.eq_none_iff_forall_ne_some.2 fun _ hstep => h _ (.step hstep)
  refine ⟨Nat.eq_zero_of_not_pos fun howed => h _ (.wake howed), ?_, ?_⟩
  · refine tally_eq_zero fun i s hstage => ?_
    rcases stage_of_step?_eq_none (hstuck i) hstage with rfl | ⟨item, rfl⟩ <;> rfl
  · refine tally_eq_zero fun i s hstage => ?_
    rcases stage_of_step?_eq_none (hstuck i) hstage with rfl | ⟨item, rfl⟩ <;> rfl

/-- With every call made and every consumer waiting or done, nobody can move. -/
theorem atRest_of_stages (howed : q.owed = 0)
    (hstages : ∀ s ∈ q.stages, s = .waiting ∨ ∃ item, s = .served item) : q.AtRest := by
  intro q' hsettles
  cases hsettles with
  | wake hcall => exact Nat.ne_of_gt hcall howed
  | @step _ i hstep =>
    have hstuck :
        ∀ {s : Stage α}, q.stages[i]? = some s → s = .waiting ∨ ∃ item, s = .served item :=
      fun hs => hstages _ (Array.mem_of_getElem? hs)
    cases turn_of_step? hstep with
    | start hs | take hs | miss hs | excuse hs | queue hs | again hs => simpa using hstuck hs

/-- Somebody waits if somebody is in line. -/
theorem Lined.stranded_iff (h : q.Lined) : q.Stranded ↔ 0 < q.size ∧ 0 < q.line.length := by
  unfold Stranded size
  rw [List.length_pos_iff, List.length_pos_iff]
  refine and_congr_right fun _ => ⟨?_, fun hline => ?_⟩
  · rintro ⟨i, hi⟩
    exact List.ne_nil_of_mem ((h.mem_iff i).2 hi)
  · obtain ⟨i, hi⟩ := List.exists_mem_of_ne_nil _ hline
    exact ⟨i, (h.mem_iff i).1 hi⟩

/-! ## Calls that get through -/

/-- A call would be wasted: nobody is in line and a permit is there, two consumers are on their way
to the line, and there are more items than consumers that will look and calls that are owed. -/
def Wasteful (q : Queue α) : Prop :=
  q.line = [] ∧ q.permit = true ∧ 2 ≤ q.leavers ∧ q.seekers + q.owed < q.size

/-- If there are more items than looks to come, then nobody waits or is about to, unless there is a
permit for it. -/
def Covered (q : Queue α) : Prop :=
  q.seekers + q.permit.toNat + q.owed < q.size → q.line.length + q.leavers ≤ q.permit.toNat

theorem Covered.turn (h : q.Covered) (hturn : Turn q i q') : q'.Covered := by
  have hcounts := hturn.counts
  unfold Covered at *
  omega

theorem Covered.wake (h : q.Covered) (hlined : q.Lined) (howed : 0 < q.owed)
    (hcall : ¬ q.Wasteful) : q.wake.Covered := by
  obtain ⟨hsize, hdone, hleavers, ⟨hline, hnone, hseekers, hpermit⟩ | ⟨hline, hseekers, hpermit⟩⟩ :=
    hlined.wake_counts howed
  · unfold Covered at *
    have hempty : q.line.length = 0 := congrArg List.length hline
    cases hbefore : q.permit with
    | false =>
      rw [hbefore, Bool.toNat_false] at h
      omega
    | true =>
      rw [hbefore, Bool.toNat_true] at h
      have hfew : ¬ (2 ≤ q.leavers ∧ q.seekers + q.owed < q.size) := fun hmany =>
        hcall ⟨hline, hbefore, hmany⟩
      omega
  · unfold Covered at *
    omega

theorem Covered.move (h : q.Covered) (hlined : q.Lined)
    (hmove : Move (fun q => ¬ q.Wasteful) q q') : q'.Covered := by
  cases hmove with
  | append item =>
    have hsize : (q.append item).size = q.size + 1 := by simp [append, size]
    have howed : (q.append item).owed = q.owed + 1 := rfl
    intro hmore
    rw [hsize, howed] at hmore
    exact h (Nat.lt_of_succ_lt_succ hmore)
  | join =>
    have hseekers : q.join.seekers = q.seekers + 1 := tally_join q _
    have hleavers : q.join.leavers = q.leavers := tally_join q _
    intro hmore
    rw [hseekers] at hmore
    rw [hleavers]
    have hbefore : q.seekers + q.permit.toNat + q.owed < q.size := by
      change q.seekers + 1 + q.permit.toNat + q.owed < q.size at hmore
      omega
    exact h hbefore
  | wake howed hcall => exact h.wake hlined howed hcall
  | step hstep => exact h.turn (turn_of_step? hstep)

theorem Reached.covered (h : Reached (fun q : Queue α => ¬ q.Wasteful) q) : q.Covered := by
  induction h with
  | refl => exact fun hmore => absurd hmore (Nat.not_lt_zero _)
  | tail h hmove ih => exact ih.move (Reached.lined h) hmove

/-! ## Calls that do not -/

/-- No call is owed, and there are more items than looks to come, and more consumers that wait or
are about to than permits. -/
structure Doomed (q : Queue α) : Prop where
  owed : q.owed = 0
  items : q.seekers + q.permit.toNat < q.size
  waiting : q.permit.toNat < q.line.length + q.leavers

theorem Doomed.settles (h : q.Doomed) (hsettles : Settles q q') : q'.Doomed := by
  obtain ⟨howed, hitems, hwaiting⟩ := h
  cases hsettles with
  | wake hcall => exact absurd howed (Nat.ne_of_gt hcall)
  | step hstep =>
    have hcounts := (turn_of_step? hstep).counts
    constructor <;> omega

theorem Doomed.stranded (h : q.Doomed) (hlined : q.Lined) (hrest : q.AtRest) : q.Stranded := by
  obtain ⟨howed, hitems, hwaiting⟩ := h
  obtain ⟨-, hseekers, hleavers⟩ := hrest.counts
  rw [hlined.stranded_iff]
  omega

/-- Calls that find nobody in line and a permit change nothing. -/
theorem settles_calls (hline : q.line = []) (hpermit : q.permit = true) :
    Relation.ReflTransGen Settles q { q with owed := 0 } := by
  induction hn : q.owed generalizing q with
  | zero =>
    have hsame : { q with owed := 0 } = q := by rw [← hn]
    rw [hsame]
  | succ n ih =>
    have hwake : q.wake = { q with owed := n } := by
      rw [wake, hn, hline, ← hpermit]
    have hnext := Settles.wake (q := q) (by omega)
    rw [hwake] at hnext
    exact .head hnext (ih (q := { q with owed := n }) hline hpermit rfl)

/-- From a doomed queue on, whatever those who are there do strands an item. -/
theorem Doomed.exists_stranded (h : q.Doomed) (hlined : q.Lined) :
    ∃ q', Relation.ReflTransGen Settles q q' ∧ q'.AtRest ∧ q'.Stranded := by
  obtain ⟨last, hruns, hrest⟩ := hlined.exists_atRest
  have hlast : last.Lined ∧ last.Doomed := by
    clear hrest
    induction hruns with
    | refl => exact ⟨hlined, h⟩
    | tail _ hnext ih => exact ⟨(ih.1.settles hnext).1, ih.2.settles hnext⟩
  exact ⟨last, hruns, hrest, hlast.2.stranded hlast.1 hrest⟩

theorem Wasteful.doomed (h : q.Wasteful) (howed : 0 < q.owed) : Doomed { q with owed := 0 } := by
  obtain ⟨hline, hpermit, hleavers, hmore⟩ := h
  refine ⟨rfl, ?_, ?_⟩
  · show q.seekers + q.permit.toNat < q.size
    rw [hpermit, Bool.toNat_true]
    omega
  · show q.permit.toNat < q.line.length + q.leavers
    rw [hpermit, Bool.toNat_true]
    omega

/-- **A wasted call, and nothing else, strands an item.** However producers and consumers mix, a
queue in which no call was wasted has no item for a consumer that waits once nobody can move. After
a wasted call those who are there can bring the queue to rest with an item queued and a consumer
waiting. -/
theorem stranded_by_wasted_calls (α : Type) :
    (∀ q : Queue α, Reached (fun q => ¬ q.Wasteful) q → q.AtRest → ¬ q.Stranded) ∧
    (∀ q : Queue α, Reached (fun _ => True) q → 0 < q.owed → q.Wasteful →
      ∃ q', Relation.ReflTransGen Settles q.wake q' ∧ q'.AtRest ∧ q'.Stranded) := by
  constructor
  · intro q hreached hrest hstranded
    obtain ⟨howed, hseekers, hleavers⟩ := hrest.counts
    have hlined := hreached.lined
    have hcovered := hreached.covered
    obtain ⟨hsize, hline⟩ := hlined.stranded_iff.1 hstranded
    have hpermit : q.permit = false := by
      refine Bool.eq_false_iff.2 fun htrue => ?_
      exact absurd (congrArg List.length (hlined.permit htrue)) (Nat.ne_of_gt hline)
    unfold Covered at hcovered
    rw [hpermit, Bool.toNat_false] at hcovered
    omega
  · intro q hreached howed hwasteful
    obtain ⟨hline, hpermit, -, -⟩ := id hwasteful
    -- the producers make all their calls first, and each finds the permit
    have hwake : q.wake = { q with owed := q.owed - 1 } := by
      rcases q.wake_cases howed with ⟨-, hwake⟩ | ⟨i, line, hsome, -⟩
      · rw [hwake, ← hpermit]
      · exact absurd (hline.symm.trans hsome) (by simp)
    have hcalls : Relation.ReflTransGen Settles q.wake { q with owed := 0 } := by
      rw [hwake]
      exact settles_calls (q := { q with owed := q.owed - 1 }) hline hpermit
    have hlined : Lined { q with owed := 0 } :=
      ⟨hreached.lined.permit, hreached.lined.nodup, hreached.lined.mem_iff⟩
    obtain ⟨last, hruns, hlast⟩ := (hwasteful.doomed howed).exists_stranded hlined
    exact ⟨last, hcalls.trans hruns, hlast⟩

/-- Two consumers have found nothing, and two items were appended; one of the calls is still
owed. -/
def twoLeaving : Queue String := ⟨["a", "b"], true, [], #[.leaving, .leaving], 1⟩

theorem reached_twoLeaving : Reached (fun _ => True) twoLeaving := by
  have hjoined : Reached (fun _ => True) (⟨[], false, [], #[.fresh, .fresh], 0⟩ : Queue String) :=
    .tail (.tail .refl (.join _)) (.join _)
  have hfirst : Reached (fun _ => True) (⟨[], false, [], #[.leaving, .fresh], 0⟩ : Queue String) :=
    .tail (.tail hjoined (.step (i := 0) rfl)) (.step (i := 0) rfl)
  have hsecond :
      Reached (fun _ => True) (⟨[], false, [], #[.leaving, .leaving], 0⟩ : Queue String) :=
    .tail (.tail hfirst (.step (i := 1) rfl)) (.step (i := 1) rfl)
  have hitems : Reached (fun _ => True)
      (⟨["a", "b"], false, [], #[.leaving, .leaving], 2⟩ : Queue String) :=
    .tail (.tail hsecond (.append _ "a")) (.append _ "b")
  exact .tail hitems (.wake (by decide) trivial)

/-- A single consumer that waits for nothing strands nothing; the second call for two consumers on
their way to the line can. -/
theorem stranded_by_wasted_calls_two :
    ¬ (⟨[], false, [0], #[.waiting], 0⟩ : Queue String).Stranded ∧
    ∃ q', Relation.ReflTransGen Settles twoLeaving.wake q' ∧ q'.AtRest ∧
      q'.Stranded := by
  have hwaits : Reached (fun q => ¬ q.Wasteful) (⟨[], false, [0], #[.waiting], 0⟩ : Queue String) :=
    .tail (.tail (.tail (.tail .refl (.join _)) (.step (i := 0) rfl)) (.step (i := 0) rfl))
      (.step (i := 0) rfl)
  have hrest : (⟨[], false, [0], #[.waiting], 0⟩ : Queue String).AtRest :=
    atRest_of_stages rfl (by simp)
  exact ⟨(stranded_by_wasted_calls String).1 _ hwaits hrest,
    (stranded_by_wasted_calls String).2 _ reached_twoLeaving (by decide)
      ⟨rfl, rfl, by decide, by decide⟩⟩

/-- Two consumers find nothing, two items are appended, and both calls are made before either
consumer takes its place in line: the first gets the permit and an item, and the second waits for
good. -/
theorem strands_second_consumer :
    Reached (fun _ => True) (⟨["b"], false, [1], #[.served "a", .waiting], 0⟩ : Queue String) ∧
      (⟨["b"], false, [1], #[.served "a", .waiting], 0⟩ : Queue String).AtRest ∧
      (⟨["b"], false, [1], #[.served "a", .waiting], 0⟩ : Queue String).Stranded := by
  refine ⟨?_, ?_, by simp, 1, rfl⟩
  · have hcalled : Reached (fun _ => True) twoLeaving.wake :=
      .tail reached_twoLeaving (.wake (by decide) trivial)
    have hserved : Reached (fun _ => True)
        (⟨["b"], false, [], #[.served "a", .leaving], 0⟩ : Queue String) :=
      .tail (.tail (.tail hcalled (.step (i := 0) rfl)) (.step (i := 0) rfl)) (.step (i := 0) rfl)
    exact .tail hserved (.step (i := 1) rfl)
  · exact atRest_of_stages rfl (by simp)

end Queue

end RingStore
