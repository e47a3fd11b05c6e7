import RingStore.Proofs.Replica.Machine
import RingStore.Proofs.Replica.Unacknowledged

/-!
# Requests that fail and decisions that come again

A machine goes through a history in which calls on files fail without a trace. A write that is not
voted on leaves the replica as it was, and no later opening takes it up. A decision that cannot be
acknowledged leaves its operation waiting, and can be given again, whatever comes in between other
than the opposite decision.

Given again, a decision to carry out is carried out. A decision to drop is too, unless a decision to
carry out came into the journal before and the replica was opened in between: the opening carries
the operation out, and the decision to drop finds nothing that waits and is acknowledged.
-/

namespace RingStore

open Disk Disk.Attempt

namespace Machine

open Standing Replica

variable {settings : ReplicaSettings} {P : Store.Contents → Standing → Prop} {M G : Store.Contents}
  {op : Operation} {ops ops' : List Operation} {commit reopened : Bool} {d e : Disk}
  {r r' : Replica} {m m' : Machine} {q : Request} {answer : Response}

/-! ## Disks that can be opened -/

/-- The disk can be opened, and its contents and its standing satisfy `P`. -/
def Holding (settings : ReplicaSettings) (P : Store.Contents → Standing → Prop) (d : Disk) : Prop :=
  ∃ (M : Store.Contents) (L : Standing) (later : List Bool), P M L ∧
    settings.Stocked M (L.log later) d ∧ L.Valid ∧ (L.log later).length < Journal.recordBound

/-- To carry out what is committed keeps to `P`. -/
def Settling (P : Store.Contents → Standing → Prop) : Prop := ∀ M L, P M L → P (L.settle M) L

/-- The machine goes off while the replica is opened. -/
theorem Holding.cut (h : Holding settings P d) (hP : Settling P) (hs : settings.Serviceable)
    (he : e ∈ (openWith settings).run.trail d) : Holding settings P e := by
  obtain ⟨cache, hcache⟩ := hs.cache
  obtain ⟨M, L, later, hML, hstocked, hL, hlen⟩ := h
  rcases (ensures_openWith_log hstocked hL hlen hs.votes hcache).1 e he with hbefore | hafter
  · exact ⟨M, L, later, hML, hbefore, hL, hlen⟩
  · exact ⟨_, L, later, hP M L hML, hafter, hL, hlen⟩

/-- The replica is opened, and has carried out what is committed. -/
theorem Holding.on (h : Holding settings P d) (hP : Settling P) (hs : settings.Serviceable) :
    ∃ r d', (openWith settings).run.run d = (.ok r, d') ∧
      ((∃ M op, P M (.voted op) ∧ r.Awaits settings M op 0 d') ∨
        ∃ M L later, P M L ∧ L.settle M = M ∧
          r.Idles settings M L later (L.log later).length d') := by
  obtain ⟨cache, hcache⟩ := hs.cache
  obtain ⟨M, L, later, hML, hstocked, hL, hlen⟩ := h
  obtain ⟨-, r, heq, hresumed⟩ := ensures_openWith_log hstocked hL hlen hs.votes hcache
  refine ⟨r, _, Prod.ext heq rfl, ?_⟩
  rcases hresumed.awaits_or_idles hL hlen with ⟨op, rfl, hawaits⟩ | hidles
  · exact .inl ⟨M, op, hML, hawaits⟩
  · exact .inr ⟨_, L, later, hP M L hML, L.settle_settle M, hidles⟩

/-- An opening that succeeds meets no failing call. -/
theorem run_of_falters_openWith (h : Action.Falters (openWith settings).run d (.ok r) e) :
    (openWith settings).run.run d = (.ok r, e) :=
  ((halts_openWith settings).falters h).resolve_right fun hbad => by
    obtain ⟨⟨f, -, heq⟩, -⟩ := hbad
    exact absurd heq (by simp)

/-- An opening that meets a failing call is as good as cut off. -/
theorem Holding.unopened (h : Holding settings P d) (hP : Settling P) (hs : settings.Serviceable)
    {f : Fault} (hopen : Action.Falters (openWith settings).run d (.error f) e) :
    Holding settings P e := by
  rcases (halts_openWith settings).falters hopen with hrun | ⟨-, htrail⟩
  · obtain ⟨r, d', heq, -⟩ := h.on hP hs
    exact absurd (congrArg Prod.fst (hrun.symm.trans heq)) (by simp)
  · exact h.cut hP hs htrail

/-! ## Histories -/

/-- The operation that was voted on, if the answer is a vote. -/
def ballots (q : Request) (answer : Response) : List Operation :=
  if answer = .voteCommit then q.operation?.toList else []

/-- The machine goes on or off or fails to go on, or its replica serves a request while calls may
fail. It goes with the operations that the replica voted on, or may have voted on when it was cut
off. -/
inductive Trial (settings : ReplicaSettings) : Machine → List Operation → Machine → Prop
  | switched {m m' : Machine} (h : Switched settings m m') : Trial settings m [] m'
  | unopened {d e : Disk} {f : Fault}
    (h : Action.Falters (openWith settings).run d (.error f) e) :
    Trial settings ⟨d, none⟩ [] ⟨e, none⟩
  | served {d e : Disk} {r r' : Replica} {q : Request} {answer : Response} {now : String}
    (hq : q.ZeroFree) (hroom : r.journal.size + 1 < Journal.recordBound)
    (h : Action.Falters (r.serve now q) d (answer, r') e) :
    Trial settings ⟨d, some r⟩ (ballots q answer) ⟨e, some r'⟩
  | cut {d e : Disk} {r : Replica} {q : Request} {now : String} (hq : q.ZeroFree)
    (hroom : r.journal.size + 1 < Journal.recordBound) (h : e ∈ (r.serve now q).trail d) :
    Trial settings ⟨d, some r⟩ q.operation?.toList ⟨e, none⟩

/-- Steps in a row, with the operations that were voted on. -/
inductive Trials (settings : ReplicaSettings) (m : Machine) : List Operation → Machine → Prop
  | start : Trials settings m [] m
  | step {ops ops' : List Operation} {m' m'' : Machine} (h : Trials settings m ops m')
    (hstep : Trial settings m' ops' m'') : Trials settings m (ops ++ ops') m''

/-- An operation that is voted on without a decision is one of `ops`. -/
def Sprung (ops : List Operation) (_ : Store.Contents) (L : Standing) : Prop :=
  ∀ op, L = .voted op → op ∈ ops

theorem settling_sprung (ops : List Operation) : Settling (Sprung ops) := fun _ _ h => h

theorem sprung_of_ne {L : Standing} (h : ∀ op, L ≠ .voted op) : Sprung ops M L :=
  fun op heq => absurd heq (h op)

theorem sprung_verdict (commit : Bool) (op : Operation) (k : Nat) :
    Sprung ops M (verdict commit op k) :=
  sprung_of_ne (verdict_ne_voted commit op k)

theorem sprung_proposed {k : Nat} (h : op ∈ ops) : Sprung ops M (proposed op k) := by
  cases k with
  | zero =>
    rintro op' heq
    exact Standing.voted.inj heq ▸ h
  | succ k => exact sprung_of_ne (by simp [proposed])

/-- The machine can be opened, or its replica awaits a decision or idles. What waits for a decision,
and what an opening takes up, is one of `ops`. -/
def Steady (settings : ReplicaSettings) (ops : List Operation) (m : Machine) : Prop :=
  match m.replica? with
  | none => Holding settings (Sprung ops) m.disk
  | some r => (∃ M op k, op ∈ ops ∧ r.Awaits settings M op k m.disk) ∨
      ∃ M L later n, r.Idles settings M L later n m.disk

theorem holding_of_awaits {k : Nat} (h : r.Awaits settings M op k d) (hP : P M (proposed op k)) :
    Holding settings P d :=
  ⟨M, _, _, hP, h.stocked, h.valid.of_operation (operation?_proposed op k), by
    rw [log_proposed, length_unacked]
    exact h.room⟩

theorem holding_of_idles {L : Standing} {later : List Bool} {n : Nat}
    (h : r.Idles settings M L later n d) (hP : P M L) : Holding settings P d :=
  ⟨M, L, later, hP, h.stocked, h.valid, h.room⟩

theorem holding_of_verdict {k : Nat} (hawaits : r.Awaits settings M op k d)
    (hroom : k + 2 < Journal.recordBound) {M' : Store.Contents}
    (h : settings.Housed M' (unacked op k ++ [.ofDecision commit]) e)
    (hP : P M' (verdict commit op k)) : Holding settings P e := by
  obtain ⟨later, hlog⟩ := exists_log_verdict commit op k
  have hlen : ((verdict commit op k).log later).length = k + 2 := by
    rw [hlog, List.length_append, length_unacked, List.length_singleton]
  rw [← hlog] at h
  exact ⟨M', _, later, hP, h.stocked (by omega),
    hawaits.valid.of_operation (operation?_verdict commit op k), by omega⟩

theorem holding_idle (h : settings.Stocked M [] d) (hP : P M .idle) : Holding settings P d :=
  ⟨M, .idle, [], hP, h, valid_idle, by decide⟩

theorem Steady.holding (h : Steady settings ops m) : Holding settings (Sprung ops) m.disk := by
  obtain ⟨d, replica?⟩ := m
  cases replica? with
  | none => exact h
  | some r =>
    rcases h with ⟨M, op, k, hop, h⟩ | ⟨M, L, later, n, h⟩
    · exact holding_of_awaits h (sprung_proposed hop)
    · exact holding_of_idles h (sprung_of_ne h.decided)

theorem Steady.on (h : Holding settings (Sprung ops) d) (hs : settings.Serviceable)
    (hopen : (openWith settings).run.run d = (.ok r, e)) : Steady settings ops ⟨e, some r⟩ := by
  obtain ⟨r', d', heq, hruns⟩ := h.on (settling_sprung ops) hs
  obtain ⟨hr, rfl⟩ := Prod.mk.inj (hopen.symm.trans heq)
  obtain rfl := Except.ok.inj hr
  rcases hruns with ⟨M, op, hop, hawaits⟩ | ⟨M, L, later, -, -, hidles⟩
  · exact .inl ⟨M, op, 0, hop op rfl, hawaits⟩
  · exact .inr ⟨M, L, later, _, hidles⟩

theorem Steady.switched (h : Steady settings ops m) (hs : settings.Serviceable)
    (hstep : Switched settings m m') : Steady settings ops m' := by
  cases hstep with
  | on hopen => exact Steady.on h.holding hs hopen
  | cut hopen => exact Holding.cut h.holding (settling_sprung ops) hs hopen
  | off => exact h.holding

/-- A request that is served adds the operation it voted on, if any, to those that may wait. -/
theorem Steady.served (h : Steady settings ops ⟨d, some r⟩) (hs : settings.Serviceable)
    {now : String} (hq : q.ZeroFree) (hroom : r.journal.size + 1 < Journal.recordBound)
    (hserve : Action.Falters (r.serve now q) d (answer, r') e) :
    Steady settings (ops ++ ballots q answer) ⟨e, some r'⟩ := by
  rcases h with ⟨M, op, k, hop, h⟩ | ⟨M, L, later, n, h⟩
  · rw [h.placed.size_eq] at hroom
    rcases h.falters_serve hs.votes hroom hserve with
      ⟨commit, -, -, later, hidles⟩ | ⟨-, -, k', -, hawaits⟩
    · exact .inr ⟨_, _, later, _, hidles⟩
    · exact .inl ⟨M, op, k', List.mem_append_left _ hop, hawaits⟩
  · rw [h.placed.size_eq] at hroom
    rcases h.falters_serve hs.votes (Nat.lt_of_succ_lt hroom) hq hserve with
      ⟨op, hop, rfl, hawaits⟩ | ⟨-, -, L', later', n', -, hidles⟩
    · refine .inl ⟨M, op, 0, List.mem_append_right _ ?_, hawaits⟩
      simp [ballots, hop]
    · exact .inr ⟨M, L', later', n', hidles⟩

theorem Steady.cut (h : Steady settings ops ⟨d, some r⟩) (hs : settings.Serviceable) {now : String}
    (hq : q.ZeroFree) (hroom : r.journal.size + 1 < Journal.recordBound)
    (hcut : e ∈ (r.serve now q).trail d) :
    Steady settings (ops ++ q.operation?.toList) ⟨e, none⟩ := by
  show Holding settings (Sprung (ops ++ q.operation?.toList)) e
  rcases h with ⟨M, op, k, hop, h⟩ | ⟨M, L, later, n, h⟩
  · have hop' : op ∈ ops ++ q.operation?.toList := List.mem_append_left _ hop
    rw [h.placed.size_eq] at hroom
    rcases h.trail_serve hs.votes hroom hcut with hsame | ⟨commit, -, hlogged | hdone⟩
    · have hstays : r.Awaits settings M op k e := { h with housed := hsame }
      exact holding_of_awaits hstays (sprung_proposed hop')
    · exact holding_of_verdict h hroom hlogged (sprung_verdict commit op k)
    · exact holding_of_verdict h hroom hdone (sprung_verdict commit op k)
  · rw [h.placed.size_eq] at hroom
    rcases h.trail_serve hs.votes (Nat.lt_of_succ_lt hroom) hq hcut with
      hsame | ⟨op, hop, hempty | ⟨hcheck, hvoted⟩⟩
    · exact ⟨M, L, later, sprung_of_ne h.decided, hsame, h.valid, h.room⟩
    · exact holding_idle hempty (sprung_of_ne (by simp))
    · have hone : 1 < Journal.recordBound := by decide
      refine ⟨M, .voted op, [], ?_, hvoted.stocked hone, valid_voted hcheck (hq op hop), hone⟩
      rintro op' heq
      obtain rfl := Standing.voted.inj heq
      exact List.mem_append_right _ (by simp [hop])

/-- After a trial nothing waits but what was voted on before, or in it. -/
theorem Steady.step (h : Steady settings ops m) (hs : settings.Serviceable)
    (hstep : Trial settings m ops' m') : Steady settings (ops ++ ops') m' := by
  cases hstep with
  | switched hswitched =>
    rw [List.append_nil]
    exact h.switched hs hswitched
  | unopened hopen =>
    rw [List.append_nil]
    exact Holding.unopened h.holding (settling_sprung ops) hs hopen
  | served hq hroom hserve => exact h.served hs hq hroom hserve
  | cut hq hroom hcut => exact h.cut hs hq hroom hcut

/-- After any trials nothing waits but what was voted on before, or in one of them. -/
theorem Steady.run (h : Steady settings ops m) (hs : settings.Serviceable)
    (hrun : Trials settings m ops' m') : Steady settings (ops ++ ops') m' := by
  induction hrun with
  | start =>
    rw [List.append_nil]
    exact h
  | step _ hstep ih =>
    rw [← List.append_assoc]
    exact ih.step hs hstep

theorem steady_of_wellKept (h : settings.WellKept d) :
    Steady settings (settings.standing d).operation?.toList ⟨d, none⟩ := by
  obtain ⟨M, L, hkept⟩ := h
  refine ⟨M, L, [], ?_, hkept.stocked, hkept.valid, ?_⟩
  · rintro op rfl
    simp [hkept.standing_eq, operation?]
  · rw [L.log_nil]
    exact L.length_records_lt

/-! ## Between two deliveries of a decision -/

/-- What may come between a decision that could not be acknowledged and the same decision: the
machine goes on and off, and its replica serves requests other than the opposite decision, votes on
no write and acknowledges nothing. A write does not come while it could be voted on and the machine
goes off then. It is told whether the machine went off. -/
inductive Meanwhile (settings : ReplicaSettings) (commit : Bool) (m : Machine) :
    Bool → Machine → Prop
  | start : Meanwhile settings commit m false m
  | switched {reopened : Bool} {m' m'' : Machine} (h : Meanwhile settings commit m reopened m')
    (hstep : Switched settings m' m'') : Meanwhile settings commit m true m''
  | unopened {reopened : Bool} {d e : Disk} {f : Fault}
    (h : Meanwhile settings commit m reopened ⟨d, none⟩)
    (hopen : Action.Falters (openWith settings).run d (.error f) e) :
    Meanwhile settings commit m true ⟨e, none⟩
  | served {reopened : Bool} {d e : Disk} {r r' : Replica} {q : Request} {answer : Response}
    {now : String} (h : Meanwhile settings commit m reopened ⟨d, some r⟩) (hq : q.ZeroFree)
    (hroom : r.journal.size + 1 < Journal.recordBound)
    (hserve : Action.Falters (r.serve now q) d (answer, r') e)
    (hother : q ≠ Coordinator.decisionRequest (!commit))
    (hagain : q = Coordinator.decisionRequest commit → answer ≠ .ack)
    (hrefused : q.operation? ≠ none → answer ≠ .voteCommit) :
    Meanwhile settings commit m reopened ⟨e, some r'⟩
  | cut {reopened : Bool} {d e : Disk} {r : Replica} {q : Request} {now : String}
    (h : Meanwhile settings commit m reopened ⟨d, some r⟩) (hq : q.ZeroFree)
    (hroom : r.journal.size + 1 < Journal.recordBound) (hcut : e ∈ (r.serve now q).trail d)
    (hother : q ≠ Coordinator.decisionRequest (!commit))
    (hwrite : q.operation? ≠ none → r.phase.pending? ≠ none) :
    Meanwhile settings commit m true ⟨e, none⟩

/-- The operation is still voted on and has not been carried out, and a decision is to make `G` of
the contents, or it is not, and the contents are `G` with all that is committed. -/
def Undecided (commit : Bool) (op : Operation) (M G : Store.Contents) (M' : Store.Contents)
    (L : Standing) : Prop :=
  (L = .voted op ∧ M' = M ∧ G = (verdict commit op 0).settle M) ∨
    ((∀ op', L ≠ .voted op') ∧ L.settle M' = G)

theorem settling_undecided : Settling (Undecided commit op M G) := by
  rintro M' L (⟨rfl, rfl, hG⟩ | ⟨hL, hG⟩)
  · exact .inl ⟨rfl, rfl, hG⟩
  · exact .inr ⟨hL, by rw [L.settle_settle, hG]⟩

/-- The operation waits, or the machine went off and it is settled to what. -/
def Stays (settings : ReplicaSettings) (commit : Bool) (op : Operation) (M G : Store.Contents)
    (reopened : Bool) (m : Machine) : Prop :=
  match m.replica? with
  | none => reopened = true ∧ Holding settings (Undecided commit op M G) m.disk
  | some r =>
    (∃ k, G = (verdict commit op k).settle M ∧ (reopened = true → commit = true ∨ k = 0) ∧
      r.Awaits settings M op k m.disk) ∨
    (reopened = true ∧ ∃ L later n, L.settle G = G ∧ r.Idles settings G L later n m.disk)

theorem undecided_proposed {k : Nat} (hG : G = (verdict commit op k).settle M) :
    Undecided commit op M G M (proposed op k) := by
  cases k with
  | zero => exact .inl ⟨rfl, rfl, hG⟩
  | succ k =>
    refine .inr ⟨by simp [proposed], ?_⟩
    rw [hG]
    cases commit <;> rfl

theorem undecided_verdict {k : Nat} (hG : G = (verdict commit op k).settle M) :
    Undecided commit op M G M (verdict commit op k) :=
  .inr ⟨verdict_ne_voted commit op k, hG.symm⟩

theorem undecided_decided {k : Nat} (hG : G = (verdict commit op k).settle M) :
    Undecided commit op M G (decided commit op M) (verdict commit op k) := by
  refine .inr ⟨verdict_ne_voted commit op k, ?_⟩
  rw [hG]
  cases commit with
  | false => rfl
  | true => exact op.effect_effect M

theorem Stays.holding (h : Stays settings commit op M G reopened m) :
    Holding settings (Undecided commit op M G) m.disk := by
  obtain ⟨d, replica?⟩ := m
  cases replica? with
  | none => exact h.2
  | some r =>
    rcases h with ⟨k, hG, -, h⟩ | ⟨-, L, later, n, hL, h⟩
    · exact holding_of_awaits h (undecided_proposed hG)
    · exact holding_of_idles h (.inr ⟨h.decided, hL⟩)

theorem Stays.switched (h : Stays settings commit op M G reopened m) (hs : settings.Serviceable)
    (hstep : Switched settings m m') : Stays settings commit op M G true m' := by
  cases hstep with
  | @on d d' r hopen =>
    obtain ⟨r', e, heq, hruns⟩ := h.holding.on settling_undecided hs
    obtain ⟨hr, rfl⟩ := Prod.mk.inj (hopen.symm.trans heq)
    obtain rfl := Except.ok.inj hr
    rcases hruns with ⟨M', op', hP, hawaits⟩ | ⟨M', L, later, hP, hsettled, hidles⟩
    · rcases hP with ⟨heq, rfl, hG⟩ | ⟨hne, -⟩
      · obtain rfl := Standing.voted.inj heq
        exact .inl ⟨0, hG, fun _ => .inr rfl, hawaits⟩
      · exact absurd rfl (hne op')
    · rcases hP with ⟨rfl, -⟩ | ⟨-, hG⟩
      · exact absurd rfl (hidles.decided op)
      · obtain rfl : M' = G := hsettled.symm.trans hG
        exact .inr ⟨rfl, L, later, _, hsettled, hidles⟩
  | cut hopen => exact ⟨rfl, h.holding.cut settling_undecided hs hopen⟩
  | off => exact ⟨rfl, h.holding⟩

theorem decisionRequest_cases {commit commit' : Bool} (hq : q = Coordinator.decisionRequest commit')
    (hother : q ≠ Coordinator.decisionRequest (!commit)) : commit' = commit := by
  by_cases heq : commit' = commit
  · exact heq
  · exact absurd (Bool.eq_not_of_ne heq ▸ hq) hother

/-- After a request that is served meanwhile the operation waits, or what it comes to is settled. -/
theorem Stays.served (h : Stays settings commit op M G reopened ⟨d, some r⟩)
    (hs : settings.Serviceable) {now : String} (hq : q.ZeroFree)
    (hroom : r.journal.size + 1 < Journal.recordBound)
    (hserve : Action.Falters (r.serve now q) d (answer, r') e)
    (hother : q ≠ Coordinator.decisionRequest (!commit))
    (hagain : q = Coordinator.decisionRequest commit → answer ≠ .ack)
    (hrefused : q.operation? ≠ none → answer ≠ .voteCommit) :
    Stays settings commit op M G reopened ⟨e, some r'⟩ := by
  rcases h with ⟨k, hG, hk, h⟩ | ⟨hreopened, L, later, n, hL, h⟩
  · rw [h.placed.size_eq] at hroom
    rcases h.falters_serve hs.votes hroom hserve with
      ⟨commit', hdecision, hack, -⟩ | ⟨-, -, k', hsame, hawaits⟩
    · obtain rfl := decisionRequest_cases hdecision hother
      exact absurd hack (hagain hdecision)
    · cases commit with
      | true => exact .inl ⟨k', hG, fun _ => .inl rfl, hawaits⟩
      | false =>
        obtain rfl := hsame hother
        exact .inl ⟨k', hG, hk, hawaits⟩
  · rw [h.placed.size_eq] at hroom
    rcases h.falters_serve hs.votes (Nat.lt_of_succ_lt hroom) hq hserve with
      ⟨op', hop, hvote, -⟩ | ⟨-, -, L', later', n', hL', hidles⟩
    · exact absurd hvote (hrefused (by simp [hop]))
    · refine .inr ⟨hreopened, L', later', n', ?_, hidles⟩
      rcases hL' with rfl | rfl
      · exact hL
      · rfl

theorem Stays.cut (h : Stays settings commit op M G reopened ⟨d, some r⟩)
    (hs : settings.Serviceable) {now : String} (hq : q.ZeroFree)
    (hroom : r.journal.size + 1 < Journal.recordBound) (hcut : e ∈ (r.serve now q).trail d)
    (hother : q ≠ Coordinator.decisionRequest (!commit))
    (hwrite : q.operation? ≠ none → r.phase.pending? ≠ none) :
    Stays settings commit op M G true ⟨e, none⟩ := by
  refine ⟨rfl, ?_⟩
  rcases h with ⟨k, hG, hk, h⟩ | ⟨hreopened, L, later, n, hL, h⟩
  · rw [h.placed.size_eq] at hroom
    rcases h.trail_serve hs.votes hroom hcut with hsame | ⟨commit', hdecision, hpassed⟩
    · have hstays : r.Awaits settings M op k e := { h with housed := hsame }
      exact holding_of_awaits hstays (undecided_proposed hG)
    · obtain rfl := decisionRequest_cases hdecision hother
      rcases hpassed with hlogged | hdone
      · exact holding_of_verdict h hroom hlogged (undecided_verdict hG)
      · exact holding_of_verdict h hroom hdone (undecided_decided hG)
  · rw [h.placed.size_eq] at hroom
    rcases h.trail_serve hs.votes (Nat.lt_of_succ_lt hroom) hq hcut with hsame | ⟨op', hop, -⟩
    · exact ⟨G, L, later, .inr ⟨h.decided, hL⟩, hsame, h.valid, h.room⟩
    · exact absurd h.phase_eq (hwrite (by simp [hop]))

/-- Whatever happens meanwhile, the operation waits, or what it comes to is settled. -/
theorem Stays.run (h : Stays settings commit op M G false m) (hs : settings.Serviceable)
    (hrun : Meanwhile settings commit m reopened m') :
    Stays settings commit op M G reopened m' := by
  induction hrun with
  | start => exact h
  | switched _ hstep ih => exact ih.switched hs hstep
  | unopened _ hopen ih => exact ⟨rfl, ih.holding.unopened settling_undecided hs hopen⟩
  | served _ hq hroom hserve hother hagain hrefused ih =>
    exact ih.served hs hq hroom hserve hother hagain hrefused
  | cut _ hq hroom hcut hother hwrite ih => exact ih.cut hs hq hroom hcut hother hwrite

/-- The decision is given again, and all calls succeed. -/
theorem Stays.decide (h : Stays settings commit op M G reopened ⟨d, some r⟩)
    (hs : settings.Serviceable) (hroom : r.journal.size + 1 < Journal.recordBound) (now : String) :
    ∃ r' e, (r.serve now (Coordinator.decisionRequest commit)).run d = ((.ack, r'), e) ∧
      r'.phase.pending? = none ∧
      settings.stored e = if reopened then G else decided commit op M := by
  have hserve : ∀ {size : Nat}, r.Placed settings size →
      r.serve now (Coordinator.decisionRequest commit) = r.decide commit := by
    intro size hplaced
    rw [serve_of_votes (hplaced.settings_eq ▸ hs.votes)]
    cases commit <;> rfl
  rcases h with ⟨k, hG, hk, h⟩ | ⟨hreopened, L, later, n, hL, h⟩
  · rw [h.placed.size_eq] at hroom
    obtain ⟨-, hack, later, hidles⟩ := h.ensures_decide hroom commit
    rw [hserve h.placed]
    refine ⟨_, _, Prod.ext (Prod.ext hack rfl) rfl, hidles.phase_eq, ?_⟩
    rw [hidles.stored_eq]
    split
    · next hreopened =>
      cases commit with
      | true => exact hG.symm
      | false =>
        obtain rfl : k = 0 := (hk hreopened).resolve_left Bool.false_ne_true
        exact hG.symm
    · rfl
  · rw [hserve h.placed, decide_of_not_pending h.phase_ne]
    refine ⟨_, _, rfl, h.phase_eq, ?_⟩
    rw [h.stored_eq, if_pos hreopened]

/-! ## What a failure leaves -/

/-- What waits for a decision was voted on. -/
theorem Steady.mem_of_pending (h : Steady settings ops ⟨d, some r⟩)
    (hphase : r.phase = .pending op) :
    op ∈ ops := by
  rcases h with ⟨M, op', k, hop, h⟩ | ⟨M, L, later, n, h⟩
  · obtain rfl := Phase.pending.inj (hphase.symm.trans h.phase_eq)
    exact hop
  · exact absurd hphase (h.phase_ne op)

/-- A write that is not voted on changes neither what waits nor a value. -/
theorem Steady.refused (h : Steady settings ops ⟨d, some r⟩) (hs : settings.Serviceable)
    {now : String} (hq : q.ZeroFree) (hroom : r.journal.size + 1 < Journal.recordBound)
    (hserve : Action.Falters (r.serve now q) d (answer, r') e) (hop : q.operation? ≠ none)
    (hanswer : answer ≠ .voteCommit) :
    r'.phase = r.phase ∧ settings.stored e = settings.stored d ∧ r'.cache = r.cache ∧
      Steady settings r.phase.pending?.toList ⟨e, some r'⟩ := by
  rcases h with ⟨M, op, k, -, h⟩ | ⟨M, L, later, n, h⟩
  · rw [h.placed.size_eq] at hroom
    rcases h.falters_serve hs.votes hroom hserve with ⟨commit, rfl, -⟩ | ⟨-, hsame, -⟩
    · cases commit <;> exact absurd rfl hop
    · obtain ⟨-, rfl, rfl⟩ := hsame hop
      refine ⟨rfl, rfl, rfl, .inl ⟨M, op, k, ?_, h⟩⟩
      rw [h.phase_eq]
      exact List.mem_singleton.2 rfl
  · rw [h.placed.size_eq] at hroom
    rcases h.falters_serve hs.votes (Nat.lt_of_succ_lt hroom) hq hserve with
      ⟨-, -, hvote, -⟩ | ⟨hsame, -, L', later', n', -, hidles⟩
    · exact absurd hvote hanswer
    · obtain ⟨-, hphase, hcache⟩ := hsame hop
      exact ⟨hphase, hidles.stored_eq.trans h.stored_eq.symm, hcache,
        .inr ⟨M, L', later', n', hidles⟩⟩

/-- A decision that is not acknowledged leaves its operation waiting. -/
theorem Steady.unacknowledged (h : Steady settings ops ⟨d, some r⟩) (hs : settings.Serviceable)
    {now : String} (hq : q.ZeroFree) (hroom : r.journal.size + 1 < Journal.recordBound)
    (hserve : Action.Falters (r.serve now q) d (answer, r') e)
    (hdecision : q = Coordinator.decisionRequest commit) (hanswer : answer ≠ .ack) :
    ∃ op k, r.phase = .pending op ∧ r'.Awaits settings (settings.stored d) op k e := by
  rcases h with ⟨M, op, k, -, h⟩ | ⟨M, L, later, n, h⟩
  · rw [h.placed.size_eq] at hroom
    rcases h.falters_serve hs.votes hroom hserve with ⟨-, -, hack, -⟩ | ⟨-, -, k', -, hawaits⟩
    · exact absurd hack hanswer
    · rw [h.stored_eq]
      exact ⟨op, k', h.phase_eq, hawaits⟩
  · rw [h.placed.size_eq] at hroom
    rcases h.falters_serve hs.votes (Nat.lt_of_succ_lt hroom) hq hserve with
      ⟨op, hop, -⟩ | ⟨-, hack, -⟩
    · rw [hdecision] at hop
      cases commit <;> cases hop
    · exact absurd (hack commit hdecision) hanswer

/-- **A failed request leaves no trace, and a failed decision can be given again.** A write that is
not voted on leaves the phase, all stored values and the cache as they are, and what a later opening
takes up is what waited already or was voted on later. A decision that is not acknowledged leaves
its operation waiting and all stored values as they are. Whatever comes in between other than the
opposite decision, the decision given again is acknowledged, nothing waits then, and a decision to
carry out has been carried out. A decision to drop has dropped the operation, unless a decision to
carry it out was in the journal and the machine went off in between: then the operation has been
carried out. -/
theorem failure_leaves_no_trace {start : Disk} (hs : settings.Serviceable)
    (hstart : settings.WellKept start) (hrun : Trials settings ⟨start, none⟩ ops ⟨d, some r⟩)
    (hq : q.ZeroFree) (hroom : r.journal.size + 1 < Journal.recordBound) {now : String}
    (hserve : Action.Falters (r.serve now q) d (answer, r') e) :
    (q.operation? ≠ none → answer ≠ .voteCommit →
      r'.phase = r.phase ∧ settings.stored e = settings.stored d ∧ r'.cache = r.cache ∧
      ∀ ops' m r₁ d₁ op₁, Trials settings ⟨e, some r'⟩ ops' m → m.replica? = none →
        Action.Falters (openWith settings).run m.disk (.ok r₁) d₁ → r₁.phase = .pending op₁ →
        op₁ ∈ r.phase.pending?.toList ++ ops') ∧
    (∀ commit, q = Coordinator.decisionRequest commit → answer ≠ .ack →
      ∃ op, r.phase = .pending op ∧ r'.phase = .pending op ∧
        settings.stored e = settings.stored d ∧
        ∀ reopened r₁ d₁ now₁, Meanwhile settings commit ⟨e, some r'⟩ reopened ⟨d₁, some r₁⟩ →
          r₁.journal.size + 1 < Journal.recordBound →
          ∃ r₂ d₂, (r₁.serve now₁ (Coordinator.decisionRequest commit)).run d₁ = ((.ack, r₂), d₂) ∧
            r₂.phase.pending? = none ∧
            settings.stored d₂ =
              if commit = true ∨ (reopened = true ∧ settings.standing e = .committed op)
              then op.effect (settings.stored d) else settings.stored d) := by
  have hsteady := (steady_of_wellKept hstart).run hs hrun
  constructor
  · intro hop hanswer
    obtain ⟨hphase, hstored, hcache, hafter⟩ := hsteady.refused hs hq hroom hserve hop hanswer
    refine ⟨hphase, hstored, hcache, fun ops' m r₁ d₁ op₁ hlater hoff hopen hpending => ?_⟩
    obtain ⟨d', replica?⟩ := m
    obtain rfl : replica? = none := hoff
    exact (Steady.on (hafter.run hs hlater).holding hs
      (run_of_falters_openWith hopen)).mem_of_pending hpending
  · intro commit hdecision hanswer
    obtain ⟨op, k, hphase, hawaits⟩ := hsteady.unacknowledged hs hq hroom hserve hdecision hanswer
    refine ⟨op, hphase, hawaits.phase_eq, hawaits.stored_eq, ?_⟩
    intro reopened r₁ d₁ now₁ hmeanwhile hroom₁
    have hstays : Stays settings commit op (settings.stored d)
        ((verdict commit op k).settle (settings.stored d)) false ⟨e, some r'⟩ :=
      .inl ⟨k, rfl, by simp, hawaits⟩
    obtain ⟨r₂, d₂, hrun₂, hphase₂, hstored₂⟩ := (hstays.run hs hmeanwhile).decide hs hroom₁ now₁
    refine ⟨r₂, d₂, hrun₂, hphase₂, hstored₂.trans ?_⟩
    rw [hawaits.standing_eq]
    cases commit with
    | true => cases reopened <;> rfl
    | false =>
      cases reopened with
      | false => simp [decided]
      | true => cases k <;> simp [proposed, verdict, dropped, settle]

/-! ## A decision that cannot be carried out -/

section Stuck

variable {key value : String} {f : DiskFault}

/-- A decision cannot be acknowledged if it does not come into the journal. -/
theorem falters_decide_unwritten {k : Nat} (h : r.Awaits settings M op k d) (hf : f ≠ .notFound)
    (commit : Bool) : Action.Falters (r.decide commit) d (.ofFault (.io (.disk f)), r) d := by
  rw [decide_of_pending h.phase_eq]
  exact .bind (.bind (falters_writeEntry_failed hf ..) .done) .done

/-- A decision to carry out comes into the journal, and then a file of the store cannot be read. -/
theorem falters_commit_unread (h : r.Awaits settings M (.put key value) 0 d) (hf : f ≠ .notFound) :
    ∃ r' e, Action.Falters (r.decide true) d (.ofFault (.io (.disk f)), r') e ∧
      r'.Awaits settings M (.put key value) 1 e := by
  have hcheck : checkPair key value = .ok () := (h.valid _ rfl).1
  obtain ⟨-, happended, hlogged⟩ := h.housed.ensures_append (.ofDecision true) r.journal.cursor
  have happend := Action.fares_of_run (m := Action.faltering) (Prod.ext happended rfl)
  have hput : Action.Falters (settings.store.put key value).run _ (.error (.io (.disk f))) _ :=
    Store.fares_put_unread hlogged.directory hcheck hf
  rw [← h.placed.store_eq] at hput
  refine ⟨{ r with journal := ⟨settings.journalPath, 2, r.journal.cursor⟩ }, _, ?_,
    ⟨h.placed.settings_eq, h.placed.store_eq, rfl⟩, h.phase_eq, hlogged, h.valid, by decide⟩
  rw [decide_of_pending h.phase_eq, h.placed.journal_eq]
  exact happend.bind (.bind (.bind (.bind hput .done) .done) .done)

/-- On an empty disk a replica votes on an operation, and the decision to carry it out comes into
the journal, but the operation cannot be carried out. -/
theorem exists_unapplied (hs : settings.Serviceable)
    (hcheck : (Operation.put key value).check = .ok ()) (hfree : (Operation.put key value).ZeroFree)
    (hf : f ≠ .notFound) :
    ∃ r₁ d₁ r₂ d₂ r₃ d₃,
      (openWith settings).run.run Disk.empty = (.ok r₁, d₁) ∧
      (r₁.serve "" (.put key value)).run d₁ = ((.voteCommit, r₂), d₂) ∧
      Trials settings ⟨Disk.empty, none⟩ [.put key value] ⟨d₂, some r₂⟩ ∧
      r₂.Awaits settings (fun _ => none) (.put key value) 0 d₂ ∧
      Action.Falters (r₂.serve "" .commit) d₂ (.ofFault (.io (.disk f)), r₃) d₃ ∧
      r₃.Awaits settings (fun _ => none) (.put key value) 1 d₃ := by
  have hfirst : Settling fun M L => M = (fun _ => none) ∧ L = .idle := by
    rintro M L ⟨rfl, rfl⟩
    exact ⟨rfl, rfl⟩
  have hempty : Holding settings (fun M L => M = (fun _ => none) ∧ L = .idle) Disk.empty :=
    ⟨_, .idle, [], ⟨rfl, rfl⟩, settings.kept_empty.stocked, valid_idle, by decide⟩
  obtain ⟨r₁, d₁, hopen, ⟨_, _, ⟨-, hL⟩, -⟩ | ⟨M, L, later, ⟨rfl, rfl⟩, -, hidles⟩⟩ :=
    hempty.on hfirst hs
  · exact absurd hL (by simp)
  have hzero : (0 : Nat) < Journal.recordBound := by decide
  obtain ⟨-, hvote, hawaits⟩ := hidles.ensures_vote hzero hcheck hfree
  rcases hrun : (r₁.vote (.put key value)).run d₁ with ⟨⟨answer, r₂⟩, d₂⟩
  rw [hrun] at hvote hawaits
  obtain rfl : answer = .voteCommit := hvote
  obtain ⟨r₃, d₃, hcommit, hawaits₃⟩ := falters_commit_unread hawaits hf
  have hserve : (r₁.serve "" (.put key value)).run d₁ = ((.voteCommit, r₂), d₂) := by
    rw [serve_of_votes (hidles.placed.settings_eq ▸ hs.votes)]
    exact hrun
  refine ⟨r₁, d₁, r₂, d₂, r₃, d₃, hopen, hserve, ?_, hawaits, ?_, hawaits₃⟩
  · refine (Trials.start.step (.switched (.on hopen))).step (.served ?_ ?_
      (Action.fares_of_run hserve))
    · rintro - ⟨⟩
      exact hfree
    · rw [hidles.placed.size_eq]
      exact (show 1 < Journal.recordBound by decide)
  · rw [serve_of_votes (hawaits.placed.settings_eq ▸ hs.votes)]
    exact hcommit

/-- A decision to carry out that could not be acknowledged is carried out when it comes again. -/
theorem failure_leaves_no_trace_of_unread :
    ∃ r d r' e r₂ d₂,
      Trials (.ofDataDir "data") ⟨Disk.empty, none⟩ [.put "k" "v"] ⟨d, some r⟩ ∧
      Action.Falters (r.serve "" .commit) d (.ofFault (.io (.disk .isADirectory)), r') e ∧
      r'.phase = .pending (.put "k" "v") ∧
      (ReplicaSettings.ofDataDir "data").stored e "k" = none ∧
      (r'.serve "" .commit).run e = ((.ack, r₂), d₂) ∧ r₂.phase.pending? = none ∧
      (ReplicaSettings.ofDataDir "data").stored d₂ "k" = some "v" := by
  have hs : (ReplicaSettings.ofDataDir "data").Serviceable := ⟨rfl, _, rfl⟩
  have hfault : DiskFault.isADirectory ≠ .notFound := by decide
  obtain ⟨-, -, r, d, r', e, -, -, htrials, hawaits, hserve, hawaits'⟩ :=
    exists_unapplied hs (show (Operation.put "k" "v").check = .ok () by decide) (by decide) hfault
  have hroom : r.journal.size + 1 < Journal.recordBound := by
    rw [hawaits.placed.size_eq]
    decide
  have hroom' : r'.journal.size + 1 < Journal.recordBound := by
    rw [hawaits'.placed.size_eq]
    decide
  obtain ⟨op, hphase, hphase', hstored, hagain⟩ :=
    (failure_leaves_no_trace hs ⟨_, _, ReplicaSettings.kept_empty _⟩ htrials
      (by rintro - ⟨⟩) hroom hserve).2 true rfl (by simp [Response.ofFault])
  obtain rfl : Operation.put "k" "v" = op := Phase.pending.inj (hawaits.phase_eq.symm.trans hphase)
  obtain ⟨r₂, d₂, hack, hphase₂, hstored₂⟩ := hagain false r' e "" .start hroom'
  refine ⟨r, d, r', e, r₂, d₂, htrials, hserve, hphase', ?_, hack, hphase₂, ?_⟩
  · rw [hawaits'.stored_eq]
  · rw [hstored₂, hawaits.stored_eq]
    rfl

/-- A decision to drop cannot be acknowledged, and the machine goes off. The decision comes again,
is acknowledged, and the operation is carried out: a decision to carry it out was in the journal. -/
theorem dropped_and_carried_out :
    ∃ r₁ d₁ r₂ d₂ r₃ d₃ r₄ d₄ r₅ d₅ r₆ d₆,
      (openWith (.ofDataDir "data")).run.run Disk.empty = (.ok r₁, d₁) ∧
      (r₁.serve "" (.put "k" "v")).run d₁ = ((.voteCommit, r₂), d₂) ∧
      Action.Falters (r₂.serve "" .commit) d₂ (.ofFault (.io (.disk .isADirectory)), r₃) d₃ ∧
      Action.Falters (r₃.serve "" .abort) d₃ (.ofFault (.io (.disk .isADirectory)), r₄) d₄ ∧
      r₄.phase = .pending (.put "k" "v") ∧
      (ReplicaSettings.ofDataDir "data").stored d₄ "k" = none ∧
      (openWith (.ofDataDir "data")).run.run d₄ = (.ok r₅, d₅) ∧
      (r₅.serve "" .abort).run d₅ = ((.ack, r₆), d₆) ∧
      (ReplicaSettings.ofDataDir "data").stored d₆ "k" = some "v" := by
  have hs : (ReplicaSettings.ofDataDir "data").Serviceable := ⟨rfl, _, rfl⟩
  have hfault : DiskFault.isADirectory ≠ .notFound := by decide
  obtain ⟨r₁, d₁, r₂, d₂, r₃, d₃, hopen, hvote, -, -, hcommit, hawaits⟩ :=
    exists_unapplied hs (show (Operation.put "k" "v").check = .ok () by decide) (by decide) hfault
  have habort :
      Action.Falters (r₃.serve "" .abort) d₃ (.ofFault (.io (.disk .isADirectory)), r₃) d₃ := by
    rw [serve_of_votes (hawaits.placed.settings_eq ▸ hs.votes)]
    exact falters_decide_unwritten hawaits hfault false
  have hcommitted : Settling fun _ L => L = .committed (.put "k" "v") := fun _ _ h => h
  obtain ⟨r₅, d₅, hopen₅, ⟨_, _, hL, -⟩ | ⟨M, L, later, rfl, hsettled, hidles⟩⟩ :=
    (holding_of_awaits (P := fun _ L => L = .committed (.put "k" "v")) hawaits rfl).on hcommitted hs
  · exact absurd hL (by simp)
  refine ⟨r₁, d₁, r₂, d₂, r₃, d₃, r₃, d₃, r₅, d₅, r₅, d₅, hopen, hvote, hcommit, habort,
    hawaits.phase_eq, ?_, hopen₅, ?_, ?_⟩
  · rw [hawaits.stored_eq]
  · rw [serve_of_votes (hidles.placed.settings_eq ▸ hs.votes), serveVoting,
      decide_of_not_pending hidles.phase_ne]
    rfl
  · rw [hidles.stored_eq, ← hsettled]
    rfl

end Stuck

end Machine

end RingStore
