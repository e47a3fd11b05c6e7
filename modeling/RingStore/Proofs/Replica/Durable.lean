import RingStore.Proofs.Replica.Serving

/-!
# What outlives a replica

A replica that is stopped leaves the contents of its store and the records of its journal
(`Durable`). A replica that votes carries out what the records commit when it is opened, whatever
the contents are then (`Durable.opened`). A replica that is not part of a cohort leaves the records
as they are. Carrying the same operations out twice makes no difference (`carryOut_carryOut`), and
neither does opening after requests that were served by a replica that votes
(`Durable.settled_serve`).
-/

namespace RingStore

namespace Standing

variable {L : Standing} {ops : List Operation} {op : Operation} {key : String}
  {M N : Store.Contents} {rs : List Record}

/-! ## Operations on a key -/

/-- Operations on other keys leave the value of a key. -/
theorem carryOut_of_notMem (h : key ∉ ops.map Operation.key) (M : Store.Contents) :
    carryOut ops M key = M key := by
  induction ops generalizing M with
  | nil => rfl
  | cons op ops ih =>
    rw [List.map_cons, List.mem_cons, not_or] at h
    calc carryOut (op :: ops) M key = op.effect M key := ih h.2 (op.effect M)
      _ = M key := Function.update_of_ne h.1 ..

/-- The last operation on a key tells its value, whatever was there before. -/
theorem carryOut_of_mem (h : key ∈ ops.map Operation.key) (M N : Store.Contents) :
    carryOut ops M key = carryOut ops N key := by
  induction ops generalizing M N with
  | nil => exact absurd h List.not_mem_nil
  | cons op ops ih =>
    by_cases hlater : key ∈ ops.map Operation.key
    · exact ih hlater (op.effect M) (op.effect N)
    · obtain rfl : key = op.key := by
        rw [List.map_cons, List.mem_cons] at h
        exact h.resolve_right hlater
      have hvalue : ∀ M, carryOut (op :: ops) M op.key = op.value? := fun M =>
        (carryOut_of_notMem hlater (op.effect M)).trans (Function.update_self ..)
      rw [hvalue, hvalue]

/-- To carry operations out once more changes nothing. -/
theorem carryOut_carryOut (ops : List Operation) (M : Store.Contents) :
    carryOut ops (carryOut ops M) = carryOut ops M := by
  funext key
  by_cases h : key ∈ ops.map Operation.key
  · exact carryOut_of_mem h _ _
  · exact carryOut_of_notMem h _

/-- One more operation that was carried out on contents that the others leave as they are. -/
theorem carryOut_concat (h : carryOut ops M = M) (op : Operation) :
    carryOut (ops ++ [op]) (op.effect M) = op.effect M := by
  rw [carryOut_append]
  funext key
  show op.effect (carryOut ops (op.effect M)) key = op.effect M key
  by_cases hkey : key = op.key
  · have hself : ∀ N : Store.Contents, op.effect N key = op.value? := fun N => by
      rw [hkey]
      exact Function.update_self ..
    rw [hself, hself]
  · have hother : ∀ N : Store.Contents, op.effect N key = N key := fun N =>
      Function.update_of_ne hkey ..
    rw [hother, hother]
    by_cases hmem : key ∈ ops.map Operation.key
    · rw [carryOut_of_mem hmem _ M, h]
    · rw [carryOut_of_notMem hmem, hother]

/-- Another record leads a standing on by one. -/
theorem ofRecords_concat (rs : List Record) (r : Record) :
    ofRecords (rs ++ [r]) = (ofRecords rs).next r := List.foldl_append

/-- Another record has what it decides carried out behind the others. -/
theorem redone_concat (rs : List Record) (r : Record) :
    idle.redone (rs ++ [r]) = idle.redone rs ++ ((ofRecords rs).commit? r).toList := by
  rw [redone_append]
  show _ ++ (((ofRecords rs).commit? r).toList ++ []) = _
  rw [List.append_nil]

/-- An operation that waits after some records waited before, or one of them tells of it. -/
theorem check_of_foldl (hL : ∀ op, L = voted op → op.check = .ok ()) (hrs : ∀ r ∈ rs, r.Checked)
    (h : rs.foldl next L = voted op) : op.check = .ok () := by
  induction rs generalizing L with
  | nil => exact hL op h
  | cons r rs ih =>
    have hr := hrs r List.mem_cons_self
    exact ih (fun op => check_of_next hL hr) (fun r' hr' => hrs r' (List.mem_cons_of_mem r hr')) h

/-- The operation that waits for a decision. -/
def pending? (L : Standing) : Option Operation := L.phase.pending?

/-- An operation waits if the vote on it is the last that was recorded. -/
theorem pending?_eq_some : L.pending? = some op ↔ L = voted op := by
  cases L <;> simp [pending?, phase, Phase.pending?]

end Standing

/-! ## Contents and records -/

namespace ReplicaSettings

/-- The operations that are carried out on opening. -/
def due (settings : ReplicaSettings) (rs : List Record) : List Operation :=
  if settings.votes then Standing.idle.redone rs else []

/-- The standing that is taken up on opening. -/
def takenUp (settings : ReplicaSettings) (rs : List Record) : Standing :=
  if settings.votes then .ofRecords rs else .idle

variable {settings : ReplicaSettings}

/-- A replica that votes carries its journal out. -/
theorem due_of_votes (h : settings.votes = true) (rs : List Record) :
    settings.due rs = Standing.idle.redone rs := if_pos h

/-- A replica that stands alone leaves its journal as it is. -/
theorem due_of_alone (h : settings.votes = false) (rs : List Record) : settings.due rs = [] := by
  rw [due, h]
  rfl

theorem takenUp_of_votes (h : settings.votes = true) (rs : List Record) :
    settings.takenUp rs = .ofRecords rs := if_pos h

theorem takenUp_of_alone (h : settings.votes = false) (rs : List Record) :
    settings.takenUp rs = .idle := by
  rw [takenUp, h]
  rfl

end ReplicaSettings

/-- The contents of a store and the records of a journal. -/
structure Durable where
  contents : Store.Contents
  records : List Record

namespace Durable

variable {settings : ReplicaSettings} {D : Durable} {op : Operation} {q : Request}

/-- The operation that the records leave waiting for a decision. -/
def pending? (D : Durable) : Option Operation := (Standing.ofRecords D.records).pending?

/-- What opening a replica makes of it. -/
def opened (settings : ReplicaSettings) (D : Durable) : Durable :=
  { D with contents := Standing.carryOut (settings.due D.records) D.contents }

/-- An operation is carried out at once, unless it is over a limit. -/
def apply (D : Durable) (op : Operation) : Durable :=
  if op.check = .ok () then { D with contents := op.effect D.contents } else D

/-- A vote takes the place of all records, unless one waits or the operation is over a limit. -/
def vote (D : Durable) (op : Operation) : Durable :=
  if D.pending? = none ∧ op.check = .ok () then { D with records := [.ofVote op] } else D

/-- A decision is recorded, and the operation that waits for it carried out or dropped. -/
def decide (D : Durable) (commit : Bool) : Durable :=
  match D.pending? with
  | some op =>
    ⟨if commit then op.effect D.contents else D.contents, D.records ++ [.ofDecision commit]⟩
  | none => D

/-- What serving a request makes of it. -/
def serve (settings : ReplicaSettings) (D : Durable) (q : Request) : Durable :=
  match settings.votes, q with
  | true, .put key value => D.vote (.put key value)
  | true, .del key => D.vote (.del key)
  | true, .commit => D.decide true
  | true, .abort => D.decide false
  | false, .put key value => D.apply (.put key value)
  | false, .del key => D.apply (.del key)
  | _, _ => D

/-- The records can be read back, what they tell of is within the limits, and there is room for the
decision that an operation waits for. -/
structure Legible (D : Durable) : Prop where
  countable : Journal.Countable D.records
  checked : ∀ r ∈ D.records, r.Checked
  room : ∀ op, D.pending? = some op → D.records.length + 1 < Journal.recordBound

theorem legible_of_nil (M : Store.Contents) : Legible ⟨M, []⟩ :=
  ⟨Journal.countable_nil, by simp, fun _ _ => (show 1 < Journal.recordBound by decide)⟩

/-- Opening a replica changes nothing. -/
def Settled (settings : ReplicaSettings) (D : Durable) : Prop := D.opened settings = D

/-- A replica is settled if carrying its journal out would change nothing. -/
theorem settled_iff :
    D.Settled settings ↔ Standing.carryOut (settings.due D.records) D.contents = D.contents := by
  obtain ⟨M, rs⟩ := D
  simp [Settled, opened]

theorem settled_of_alone (h : settings.votes = false) (D : Durable) : D.Settled settings := by
  rw [settled_iff, ReplicaSettings.due_of_alone h]
  rfl

/-- A replica that was opened is settled. -/
theorem settled_opened (settings : ReplicaSettings) (D : Durable) :
    (D.opened settings).Settled settings :=
  settled_iff.2 (Standing.carryOut_carryOut _ _)

/-- Opening gives the keys of the operations that are due the values that they had when the records
were settled, and leaves all others. -/
theorem contents_opened {settings' : ReplicaSettings} {D' : Durable} (h : D'.Settled settings')
    (hvotes : settings'.votes = true) (hrecords : D.records = D'.records) (key : String) :
    (D.opened settings).contents key =
      if key ∈ (settings.due D.records).map Operation.key then D'.contents key
      else D.contents key := by
  split
  · next hmem =>
    have hdue : settings.due D.records = settings'.due D'.records := by
      cases halone : settings.votes with
      | false => simp [ReplicaSettings.due_of_alone halone] at hmem
      | true =>
        rw [ReplicaSettings.due_of_votes halone, ReplicaSettings.due_of_votes hvotes, hrecords]
    calc (D.opened settings).contents key
        = Standing.carryOut (settings.due D.records) D'.contents key :=
          Standing.carryOut_of_mem hmem _ _
      _ = D'.contents key := by rw [hdue, settled_iff.1 h]
  · next hmem => exact Standing.carryOut_of_notMem hmem _

/-- To open a replica leaves its records legible. -/
theorem Legible.opened (h : D.Legible) (settings : ReplicaSettings) : (D.opened settings).Legible :=
  ⟨h.countable, h.checked, h.room⟩

theorem Legible.check_pending (h : D.Legible) (hop : D.pending? = some op) : op.check = .ok () :=
  Standing.check_of_foldl (by simp) h.checked (Standing.pending?_eq_some.1 hop)

/-! ## Votes -/

theorem Legible.vote (h : D.Legible) (hop : op.ZeroFree) : (D.vote op).Legible := by
  unfold Durable.vote
  split
  · next hvote =>
    refine ⟨Journal.countable_single (Record.length_data_ofVote_lt hvote.2), ?_, fun op' _ => ?_⟩
    · intro r hr
      obtain rfl := List.mem_singleton.1 hr
      exact Record.checked_ofVote hvote.2 hop
    · exact (show 2 < Journal.recordBound by decide)
  · exact h

/-- A vote takes the place of what was committed before. -/
theorem Settled.vote (h : D.Settled settings) (hop : op.ZeroFree) :
    (D.vote op).Settled settings := by
  unfold Durable.vote
  split
  · rw [settled_iff]
    cases hvotes : settings.votes with
    | false => rw [ReplicaSettings.due_of_alone hvotes]; rfl
    | true =>
      rw [ReplicaSettings.due_of_votes hvotes, Standing.redone_cons_ofVote _ hop]
      rfl
  · exact h

/-! ## Decisions -/

theorem pending?_decide (commit : Bool) : (D.decide commit).pending? = none := by
  unfold Durable.decide
  cases hop : D.pending? with
  | none => exact hop
  | some op =>
    have hvoted := Standing.pending?_eq_some.1 hop
    rw [pending?, Standing.ofRecords_concat, hvoted]
    cases commit <;> rfl

theorem Legible.decide (h : D.Legible) (commit : Bool) : (D.decide commit).Legible := by
  cases hop : D.pending? with
  | none =>
    unfold Durable.decide
    rw [hop]
    exact h
  | some op =>
    have hnone := pending?_decide (D := D) commit
    unfold Durable.decide at hnone ⊢
    rw [hop] at hnone ⊢
    refine ⟨h.countable.concat (h.room op hop) (Standing.length_data_ofDecision commit), ?_, ?_⟩
    · intro r hr
      rcases List.mem_append.1 hr with hr | hr
      · exact h.checked r hr
      · obtain rfl := List.mem_singleton.1 hr
        exact Record.checked_ofDecision commit
    · intro op' hop'
      exact absurd (hnone.symm.trans hop') (by simp)

/-- What a decision commits is carried out already. -/
theorem Settled.decide (h : D.Settled settings) (hvotes : settings.votes = true) (commit : Bool) :
    (D.decide commit).Settled settings := by
  unfold Durable.decide
  cases hop : D.pending? with
  | none => exact h
  | some op =>
    have hvoted := Standing.pending?_eq_some.1 hop
    rw [settled_iff, ReplicaSettings.due_of_votes hvotes] at h ⊢
    rw [Standing.redone_concat, hvoted]
    cases commit with
    | false =>
      show Standing.carryOut (Standing.idle.redone D.records ++ []) D.contents = D.contents
      rwa [List.append_nil]
    | true => exact Standing.carryOut_concat h op

/-! ## Requests -/

/-- A request changes nothing, or is a vote, a decision, or an operation that is carried out at
once. -/
theorem serve_cases (settings : ReplicaSettings) (D : Durable) (q : Request) :
    D.serve settings q = D ∨
      (settings.votes = true ∧ ((∃ op, q.operation? = some op ∧ D.serve settings q = D.vote op) ∨
        ∃ commit, D.serve settings q = D.decide commit)) ∨
      (settings.votes = false ∧ ∃ op, D.serve settings q = D.apply op) := by
  unfold serve
  cases settings.votes with
  | true =>
    cases q with
    | put key value => exact .inr (.inl ⟨rfl, .inl ⟨_, rfl, rfl⟩⟩)
    | del key => exact .inr (.inl ⟨rfl, .inl ⟨_, rfl, rfl⟩⟩)
    | commit | abort => exact .inr (.inl ⟨rfl, .inr ⟨_, rfl⟩⟩)
    | get _ | register _ _ | info => exact .inl rfl
  | false =>
    cases q with
    | put key value => exact .inr (.inr ⟨rfl, _, rfl⟩)
    | del key => exact .inr (.inr ⟨rfl, _, rfl⟩)
    | commit | abort | get _ | register _ _ | info => exact .inl rfl

theorem records_apply (D : Durable) (op : Operation) : (D.apply op).records = D.records := by
  unfold apply
  split <;> rfl

/-- To serve a request leaves the records legible. -/
theorem Legible.serve (h : D.Legible) (hq : settings.votes = true → q.ZeroFree) :
    (D.serve settings q).Legible := by
  rcases serve_cases settings D q with heq | ⟨hvotes, ⟨op, hop, heq⟩ | ⟨commit, heq⟩⟩ | ⟨-, op, heq⟩
  · rwa [heq]
  · rw [heq]
    exact h.vote (hq hvotes op hop)
  · rw [heq]
    exact h.decide commit
  · have hrecords := D.records_apply op
    rw [heq]
    exact ⟨hrecords ▸ h.countable, hrecords ▸ h.checked, by
      rw [pending?, hrecords]
      exact h.room⟩

/-- To serve a request leaves a replica settled. -/
theorem Settled.serve (h : D.Settled settings) (hq : settings.votes = true → q.ZeroFree) :
    (D.serve settings q).Settled settings := by
  rcases serve_cases settings D q with heq | ⟨hvotes, ⟨op, hop, heq⟩ | ⟨commit, heq⟩⟩ | ⟨halone, -⟩
  · rwa [heq]
  · rw [heq]
    exact h.vote (hq hvotes op hop)
  · rw [heq]
    exact h.decide hvotes commit
  · exact settled_of_alone halone _

theorem records_serve_of_alone (h : settings.votes = false) (D : Durable) (q : Request) :
    (D.serve settings q).records = D.records := by
  rcases serve_cases settings D q with heq | ⟨hvotes, -⟩ | ⟨-, op, heq⟩
  · rw [heq]
  · exact absurd (h.symm.trans hvotes) (by simp)
  · rw [heq, D.records_apply op]

/-- What serving requests one after the other makes of it. -/
def serveAll (settings : ReplicaSettings) (D : Durable) (requests : List (String × Request)) :
    Durable :=
  requests.foldl (fun D request => D.serve settings request.2) D

/-- Requests that come one after the other leave the records legible. -/
theorem Legible.serveAll {requests : List (String × Request)} (h : D.Legible)
    (hq : settings.votes = true → ∀ request ∈ requests, request.2.ZeroFree) :
    (D.serveAll settings requests).Legible := by
  induction requests generalizing D with
  | nil => exact h
  | cons request rest ih =>
    have hfirst := h.serve fun hvotes => hq hvotes request List.mem_cons_self
    exact ih hfirst fun hvotes later hlater => hq hvotes later (List.mem_cons_of_mem _ hlater)

/-- Requests that come one after the other leave a replica settled. -/
theorem Settled.serveAll {requests : List (String × Request)} (h : D.Settled settings)
    (hq : settings.votes = true → ∀ request ∈ requests, request.2.ZeroFree) :
    (D.serveAll settings requests).Settled settings := by
  induction requests generalizing D with
  | nil => exact h
  | cons request rest ih =>
    have hfirst := h.serve fun hvotes => hq hvotes request List.mem_cons_self
    exact ih hfirst fun hvotes later hlater => hq hvotes later (List.mem_cons_of_mem _ hlater)

/-- A replica that stands alone never touches its records. -/
theorem records_serveAll_of_alone (h : settings.votes = false) (D : Durable)
    (requests : List (String × Request)) : (D.serveAll settings requests).records = D.records := by
  induction requests generalizing D with
  | nil => rfl
  | cons request rest ih => exact (ih _).trans (records_serve_of_alone h D request.2)

end Durable

end RingStore
