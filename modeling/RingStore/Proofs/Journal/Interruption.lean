import RingStore.Replica
import RingStore.Proofs.Journal.Contents

/-!
# Journals that are interrupted

A journal is opened, appended to, cleared and given a vote in place of its records, and each of
these may be cut off between any two changes of the disk, opening included. What is read after the
next opening then is a list that this history allows: an addition that was cut off is there or not,
and a clearing that was cut off has removed all records or none. In particular no record comes back
that was removed, and none is read behind one that was added later: after a clearing
that was carried out, only what came behind it is read (`mem_outcomes_of_cleared`).
-/

namespace RingStore

open Disk Disk.Attempt

namespace Journal

variable {d e : Disk} {dir : Path} {rs rs' : List Record} {N : String → Prop}

/-! ## Reading a journal to its end -/

/-- Reads the records from the cursor on, at most `steps` of them. -/
def readOn : Nat → Journal → Attempt (List Record)
  | 0, _ => return []
  | steps + 1, j => do
    match ← j.next with
    | (some r, j) => return r :: (← readOn steps j)
    | (none, _) => return []

/-- Reads all records. -/
def readAll (j : Journal) : Attempt (List Record) := readOn (j.size + 1) j.rewind

/-- From a place on, the records are read in their order. -/
theorem answers_readOn (h : Holds dir rs recordBound d) (hlen : rs.length < recordBound)
    (hdata : ∀ r ∈ rs, r.data.length < Nat.pow 256 8) {steps i : Nat} (hi : i ≤ rs.length)
    (hsteps : rs.length < i + steps) :
    (readOn steps ⟨dir, rs.length, i⟩).Answers d (.ok (rs.drop i)) := by
  induction steps generalizing i with
  | zero => omega
  | succ steps ih =>
    rcases Nat.lt_or_eq_of_le hi with hlt | rfl
    · rw [List.drop_eq_getElem_cons hlt]
      refine (answers_next h hlen hlt (hdata _ (List.getElem_mem hlt))).bind ?_
      exact (ih (i := i + 1) hlt (by omega)).bind (answers_pure _ d)
    · rw [List.drop_length]
      exact (answers_next_end (Nat.le_refl rs.length)).bind (answers_pure _ d)

/-- All records are read in their order. -/
theorem answers_readAll (h : Holds dir rs recordBound d) (hlen : rs.length < recordBound)
    (hdata : ∀ r ∈ rs, r.data.length < Nat.pow 256 8) (cursor : Nat) :
    (readAll ⟨dir, rs.length, cursor⟩).Answers d (.ok rs) :=
  answers_readOn h hlen hdata (Nat.zero_le _) (by rw [Nat.zero_add]; exact Nat.lt_succ_self _)

/-! ## What is done to a journal -/

/-- Writes a vote in place of all records. -/
def vote (j : Journal) (op : Operation) : Attempt Journal :=
  ExceptT.mk do
    let (outcome, j) ← Replica.recordVote j op
    return outcome.map fun () => j

theorem vote_eq (j : Journal) (op : Operation) :
    j.vote op = j.clear >>= fun j => j.append (.ofVote op) := by
  refine ExceptT.ext ?_
  unfold vote Replica.recordVote
  simp only [ExceptT.run_mk, bind_assoc, ExceptT.run_bind]
  refine bind_congr fun cleared => ?_
  cases cleared with
  | error f => rfl
  | ok j =>
    simp only [bind_assoc]
    refine Eq.trans (bind_congr fun appended => ?_) (bind_pure (m := Action) _)
    cases appended <;> rfl

/-- What is done to a journal. -/
inductive Deed
  | opening
  | appending (r : Record)
  | clearing
  | voting (op : Operation)

namespace Deed

/-- The calls of a deed. Only opening needs no journal that is open. -/
def attempt (dir : Path) : Deed → Option Journal → Option (Attempt Journal)
  | opening, _ => some (openIn dir)
  | appending r, some j => some (j.append r)
  | clearing, some j => some j.clear
  | voting op, some j => some (j.vote op)
  | _, none => none

/-- What is written fits the numbers that tell of its size, and so does the number of records. -/
def Fits (journal? : Option Journal) : Deed → Prop
  | opening | clearing => True
  | appending r =>
    r.data.length < Nat.pow 256 8 ∧ ∀ j, journal? = some j → j.size + 1 < recordBound
  | voting op => (Record.ofVote op).data.length < Nat.pow 256 8

/-- The records after a deed that was carried out. -/
def result (rs : List Record) : Deed → List Record
  | opening => rs
  | appending r => rs ++ [r]
  | clearing => []
  | voting op => [.ofVote op]

/-- The records that there may be after a deed that was cut off. -/
def remnants (rs : List Record) : Deed → List (List Record)
  | opening => [rs]
  | appending r => [rs, rs ++ [r]]
  | clearing => [rs, []]
  | voting op => [rs, [], [.ofVote op]]

end Deed

/-- The records that there may be after deeds in a row, each of them carried out or not. -/
def outcomes (rs : List Record) (deeds : List (Deed × Bool)) : List (List Record) :=
  deeds.foldl (fun all (deed, done) =>
    all.flatMap fun rs => if done then [deed.result rs] else deed.remnants rs) [rs]

/-- A disk with the journal in a directory of it, if it is open. -/
structure Volume where
  disk : Disk
  journal? : Option Journal

/-- A deed is carried out, or it is cut off: between two changes, or because a call fails. What was
cut off leaves no journal that is open. -/
inductive Step (dir : Path) : Volume → Deed × Bool → Volume → Prop
  | done {v : Volume} {deed : Deed} {x : Attempt Journal} {j : Journal}
    (hfits : deed.Fits v.journal?)
    (hx : deed.attempt dir v.journal? = some x) (hj : (x.run.run v.disk).1 = .ok j) :
    Step dir v (deed, true) ⟨(x.run.run v.disk).2, some j⟩
  | cut {v : Volume} {deed : Deed} {x : Attempt Journal} {e : Disk} (hfits : deed.Fits v.journal?)
    (hx : deed.attempt dir v.journal? = some x) (he : e ∈ x.run.trail v.disk) :
    Step dir v (deed, false) ⟨e, none⟩

theorem Step.of_run {v : Volume} {deed : Deed} {x : Attempt Journal} {j : Journal}
    (hfits : deed.Fits v.journal?) (hx : deed.attempt dir v.journal? = some x)
    (hrun : x.run.run v.disk = (.ok j, e)) : Step dir v (deed, true) ⟨e, some j⟩ := by
  obtain rfl : (x.run.run v.disk).2 = e := by rw [hrun]
  exact .done hfits hx (by rw [hrun])

/-- What a volume can come to, with the deeds. -/
inductive Run (dir : Path) (v : Volume) : List (Deed × Bool) → Volume → Prop
  | start : Run dir v [] v
  | step {deeds : List (Deed × Bool)} {deed : Deed × Bool} {v' v'' : Volume}
    (h : Run dir v deeds v') (hstep : Step dir v' deed v'') : Run dir v (deeds ++ [deed]) v''

/-! ## What one deed leaves -/

/-- The records that opening will find, whatever directories there are. -/
structure Volume.Sound (dir : Path) (rs : List Record) (v : Volume) : Prop where
  kept : KeptAmong (fun _ => True) dir rs v.disk
  opened : ∀ j, v.journal? = some j → TidyAmong (fun _ => True) dir rs v.disk ∧
    ∃ cursor, j = ⟨dir, rs.length, cursor⟩
  countable : Countable rs

/-- A deed other than opening is done to a journal that is open. -/
theorem Deed.attempt_eq_some {deed : Deed} {journal? : Option Journal} {x : Attempt Journal}
    (hx : deed.attempt dir journal? = some x) :
    (deed = opening ∧ x = openIn dir) ∨ ∃ j, journal? = some j ∧
      ((∃ r, deed = appending r ∧ x = j.append r) ∨ (deed = clearing ∧ x = j.clear) ∨
        ∃ op, deed = voting op ∧ x = j.vote op) := by
  cases deed with
  | opening => exact .inl ⟨rfl, (Option.some.inj hx).symm⟩
  | appending r =>
    cases journal? with
    | none => cases hx
    | some j => exact .inr ⟨j, rfl, .inl ⟨r, rfl, (Option.some.inj hx).symm⟩⟩
  | clearing =>
    cases journal? with
    | none => cases hx
    | some j => exact .inr ⟨j, rfl, .inr (.inl ⟨rfl, (Option.some.inj hx).symm⟩)⟩
  | voting op =>
    cases journal? with
    | none => cases hx
    | some j => exact .inr ⟨j, rfl, .inr (.inr ⟨op, rfl, (Option.some.inj hx).symm⟩)⟩

/-- A deed that is cut off leaves the records from before, or none, or what it was to leave. -/
theorem Deed.mem_remnants {deed : Deed} (h : rs' ∈ deed.remnants rs) :
    rs' = rs ∨ rs' = [] ∨ rs' = deed.result rs := by
  cases deed <;> simp [remnants, result] at h ⊢ <;> tauto

/-- While a record is added the journal is as before, or has the record already. -/
theorem ensures_appending (h : TidyAmong (fun _ => True) dir rs d) (hlen : rs.length < recordBound)
    (r : Record) (cursor : Nat) :
    (append ⟨dir, rs.length, cursor⟩ r).Ensures
      (fun e => TidyAmong (fun _ => True) dir rs e ∨ TidyAmong (fun _ => True) dir (rs ++ [r]) e)
      (fun a e => ∀ j, a = .ok j →
        TidyAmong (fun _ => True) dir (rs ++ [r]) e ∧ j = ⟨dir, rs.length + 1, cursor⟩) d := by
  by_cases hdraft : d.at? (draftPath dir (toString rs.length)) = some .directory
  · have hfails := answers_writeEntry_directory (Wire.encode r) hdraft
    exact hfails.bind_error.ensures (.inl h) fun j hj => by cases hj
  · have hentry : d.at? (recordPath dir rs.length) ≠ some .directory := by
      rw [h.holds.at?_of_le hlen (Nat.le_refl _)]
      simp
    have happend := h.ensures_append r (Nat.le_refl _) (Nat.le_succ _) cursor hdraft hentry
    rw [List.take_length] at happend
    refine happend.mono (fun e he => he) ?_
    rintro a e - ⟨rfl, htidy⟩ j hj
    obtain rfl := Except.ok.inj hj
    exact ⟨htidy, rfl⟩

/-- While a journal is cleared it has its records, or none. -/
theorem ensures_clearing (h : TidyAmong (fun _ => True) dir rs d) (hlen : rs.length < recordBound)
    (cursor : Nat) :
    (clear ⟨dir, rs.length, cursor⟩).Ensures
      (fun e => KeptAmong (fun _ => True) dir rs e ∨ KeptAmong (fun _ => True) dir [] e)
      (fun a e => ∀ j, a = .ok j → TidyAmong (fun _ => True) dir [] e ∧ j = ⟨dir, 0, 0⟩) d := by
  refine ((h.kept hlen).ensures_clear h.directory (by omega) hlen cursor).mono (fun e he => he) ?_
  rintro a e - (⟨rfl, htidy⟩ | ⟨⟨f, rfl⟩, -⟩) j hj
  · obtain rfl := Except.ok.inj hj
    exact ⟨htidy, rfl⟩
  · cases hj

/-- While a vote is recorded the journal has its records, or none, or the vote alone. -/
theorem ensures_voting (h : TidyAmong (fun _ => True) dir rs d) (hlen : rs.length < recordBound)
    (op : Operation) (cursor : Nat) :
    (vote ⟨dir, rs.length, cursor⟩ op).Ensures
      (fun e => ∃ rs' ∈ [rs, [], [.ofVote op]], KeptAmong (fun _ => True) dir rs' e)
      (fun a e => ∀ j, a = .ok j →
        TidyAmong (fun _ => True) dir [.ofVote op] e ∧ j = ⟨dir, 1, 0⟩) d := by
  rw [vote_eq]
  refine Ensures.bind ((ensures_clearing h hlen cursor).mono ?_ fun a e _ hQ => hQ) ?_ ?_
  · rintro e (hkept | hkept)
    · exact ⟨rs, by simp, hkept⟩
    · exact ⟨[], by simp, hkept⟩
  · intro j e hC hcleared
    obtain ⟨htidy, rfl⟩ := hcleared j rfl
    refine (ensures_appending htidy (by decide) (.ofVote op) 0).mono ?_ fun a e _ hQ => hQ
    rintro e (htidy' | htidy')
    · exact ⟨[], by simp, htidy'.kept (by decide)⟩
    · exact ⟨[.ofVote op], by simp, htidy'.kept (show 1 < recordBound by decide)⟩
  · intro f e _ _ j hj
    cases hj

theorem Deed.countable_result {deed : Deed} {v : Volume} {x : Attempt Journal} (h : v.Sound dir rs)
    (hfits : deed.Fits v.journal?) (hx : deed.attempt dir v.journal? = some x) :
    Countable (deed.result rs) := by
  rcases attempt_eq_some hx with ⟨rfl, -⟩ | ⟨j, hopen, ⟨r, rfl, -⟩ | ⟨rfl, -⟩ | ⟨op, rfl, -⟩⟩
  · exact h.countable
  · obtain ⟨hdata, hroom⟩ := hfits
    obtain ⟨-, cursor, rfl⟩ := h.opened j hopen
    have hsize : rs.length + 1 < recordBound := hroom _ hopen
    exact h.countable.concat hsize hdata
  · exact countable_nil
  · exact countable_single hfits

/-- What a deed leaves on the way and in the end. -/
theorem Deed.ensures_attempt {deed : Deed} {v : Volume} {x : Attempt Journal} (h : v.Sound dir rs)
    (hfits : deed.Fits v.journal?) (hx : deed.attempt dir v.journal? = some x) :
    x.Ensures (fun e => ∃ rs' ∈ deed.remnants rs, KeptAmong (fun _ => True) dir rs' e)
      (fun a e => ∀ j, a = .ok j → TidyAmong (fun _ => True) dir (deed.result rs) e ∧
        ∃ cursor, j = ⟨dir, (deed.result rs).length, cursor⟩) v.disk := by
  obtain ⟨hlen, -⟩ := h.countable
  obtain ⟨hlen', -⟩ := deed.countable_result h hfits hx
  rcases attempt_eq_some hx with ⟨rfl, rfl⟩ | ⟨j, hopen, hdeed⟩
  · refine (h.kept.ensures_openIn hlen).mono (fun e he => ⟨rs, by simp [remnants], he.1⟩) ?_
    rintro a e - (⟨rfl, htidy⟩ | ⟨⟨f, rfl⟩, -⟩) j hj
    · obtain rfl := Except.ok.inj hj
      exact ⟨htidy, 0, rfl⟩
    · cases hj
  obtain ⟨htidy, cursor, rfl⟩ := h.opened j hopen
  rcases hdeed with ⟨r, rfl, rfl⟩ | ⟨rfl, rfl⟩ | ⟨op, rfl, rfl⟩
  · refine (ensures_appending htidy hlen r cursor).mono ?_ fun a e _ hQ j hj => ?_
    · rintro e (htidy' | htidy')
      · exact ⟨rs, by simp [remnants], htidy'.kept hlen⟩
      · exact ⟨rs ++ [r], by simp [remnants], htidy'.kept hlen'⟩
    · obtain ⟨htidy', rfl⟩ := hQ j hj
      exact ⟨htidy', cursor, by simp [result]⟩
  · refine (ensures_clearing htidy hlen cursor).mono ?_ fun a e _ hQ j hj => ?_
    · rintro e (hkept | hkept)
      · exact ⟨rs, by simp [remnants], hkept⟩
      · exact ⟨[], by simp [remnants], hkept⟩
    · obtain ⟨htidy', rfl⟩ := hQ j hj
      exact ⟨htidy', 0, rfl⟩
  · refine (ensures_voting htidy hlen op cursor).mono (fun e he => he) fun a e _ hQ j hj => ?_
    obtain ⟨htidy', rfl⟩ := hQ j hj
    exact ⟨htidy', 0, rfl⟩

/-! ## Deeds in a row -/

theorem outcomes_concat (rs : List Record) (deeds : List (Deed × Bool)) (deed : Deed)
    (done : Bool) :
    outcomes rs (deeds ++ [(deed, done)]) =
      (outcomes rs deeds).flatMap fun rs => if done then [deed.result rs] else deed.remnants rs :=
  List.foldl_append

theorem outcomes_append (rs : List Record) (deeds deeds' : List (Deed × Bool)) :
    outcomes rs (deeds ++ deeds') = (outcomes rs deeds).flatMap fun rs => outcomes rs deeds' := by
  induction deeds' using List.reverseRecOn with
  | nil => simp [outcomes]
  | append_singleton deeds' deed ih =>
    rw [← List.append_assoc, outcomes_concat, ih, List.flatMap_assoc]
    exact List.flatMap_congr fun rs' _ => (outcomes_concat rs' deeds' deed.1 deed.2).symm

/-- Once a clearing was carried out, only records that were added later are read. -/
theorem mem_outcomes_of_cleared {deeds deeds' : List (Deed × Bool)}
    (h : rs' ∈ outcomes rs (deeds ++ (.clearing, true) :: deeds')) : rs' ∈ outcomes [] deeds' := by
  rw [outcomes_append] at h
  obtain ⟨rs'', -, h⟩ := List.mem_flatMap.1 h
  rw [← List.singleton_append, outcomes_append] at h
  simpa [outcomes, Deed.result] using h

/-- A deed that is done or cut off leaves one of the journals that it may leave. -/
theorem Volume.Sound.step {v v' : Volume} {deed : Deed × Bool} (h : v.Sound dir rs)
    (hstep : Step dir v deed v') :
    ∃ rs' ∈ (if deed.2 then [deed.1.result rs] else deed.1.remnants rs), v'.Sound dir rs' := by
  cases hstep with
  | done hfits hx hj =>
    have hafter := (Deed.ensures_attempt h hfits hx).2 _ hj
    have hcountable := Deed.countable_result h hfits hx
    refine ⟨_, List.mem_singleton.2 rfl, hafter.1.kept hcountable.1, fun j hj' => ?_, hcountable⟩
    obtain rfl := Option.some.inj hj'
    exact hafter
  | cut hfits hx he =>
    obtain ⟨rs', hmem, hkept⟩ := (Deed.ensures_attempt h hfits hx).1 _ he
    refine ⟨rs', hmem, hkept, fun j hj => absurd hj (by simp), ?_⟩
    rcases Deed.mem_remnants hmem with rfl | rfl | rfl
    · exact h.countable
    · exact countable_nil
    · exact Deed.countable_result h hfits hx

/-- Deeds one after the other leave one of the journals that they may leave. -/
theorem Volume.Sound.run {v v' : Volume} {deeds : List (Deed × Bool)} (h : v.Sound dir rs)
    (hrun : Run dir v deeds v') : ∃ rs' ∈ outcomes rs deeds, v'.Sound dir rs' := by
  induction hrun with
  | start => exact ⟨rs, List.mem_singleton.2 rfl, h⟩
  | step hbefore hstep ih =>
    obtain ⟨rs', hmem, hsound⟩ := ih
    obtain ⟨rs'', hmem', hsound'⟩ := hsound.step hstep
    refine ⟨rs'', ?_, hsound'⟩
    rw [outcomes_concat]
    exact List.mem_flatMap.2 ⟨rs', hmem, hmem'⟩

/-- Whatever was done to a journal, and wherever it was cut off, the next opening that succeeds
finds one of the lists that the deeds allow, and reads it from the first record to the last. It
succeeds if no directory bears the name of a record. -/
theorem read_after_interruption {d : Disk} {deeds : List (Deed × Bool)} {v : Volume}
    (hd : d.Proper) (hclear : d.Clear dir) (hholds : Holds dir rs (rs.length + 1) d)
    (hcountable : Countable rs) (hrun : Run dir ⟨d, none⟩ deeds v) :
    ∃ rs' ∈ outcomes rs deeds,
      (∀ j, ((openIn dir).run.run v.disk).1 = .ok j →
        j.size = rs'.length ∧ j.readAll.Answers ((openIn dir).run.run v.disk).2 (.ok rs')) ∧
      ((∀ name, (indexOf? name).isSome → v.disk.at? (dir ++ [name]) ≠ some .directory) →
        ∃ j, ((openIn dir).run.run v.disk).1 = .ok j) := by
  have hstart : Volume.Sound dir rs ⟨d, none⟩ :=
    ⟨⟨hd, hclear, fun _ _ => trivial, hholds⟩, fun j hj => absurd hj (by simp), hcountable⟩
  obtain ⟨rs', hmem, hsound⟩ := hstart.run hrun
  obtain ⟨hlen, hdata⟩ := hsound.countable
  refine ⟨rs', hmem, fun j hj => ?_, fun hnames => ?_⟩
  · rcases (hsound.kept.ensures_openIn hlen).2 with ⟨heq, htidy⟩ | ⟨⟨f, hf⟩, -⟩
    · obtain rfl := Except.ok.inj (hj.symm.trans heq)
      exact ⟨rfl, answers_readAll htidy.holds hlen hdata 0⟩
    · cases hf.symm.trans hj
  · have hkept : KeptAmong (fun name => v.disk.at? (dir ++ [name]) = some .directory) dir rs'
        v.disk := ⟨hsound.kept.proper, hsound.kept.clear, fun _ h => h, hsound.kept.holds⟩
    rcases (hkept.ensures_openIn hlen).2 with ⟨heq, -⟩ | ⟨-, name, hnode, hname⟩
    · exact ⟨_, heq⟩
    · exact absurd hnode (hnames name hname)

/-- A decision is added behind a vote, and the journal is cut off before that is known. -/
theorem read_after_interruption_of_decision :
    ∃ v, Run ["log"] ⟨Disk.empty, none⟩ [(.opening, true), (.voting (.del "k"), true),
        (.appending (.ofDecision true), false)] v ∧
      ∃ rs ∈ [[Record.ofVote (.del "k")], [.ofVote (.del "k"), .ofDecision true]],
        ∀ j, ((openIn ["log"]).run.run v.disk).1 = .ok j →
          j.size = rs.length ∧ j.readAll.Answers ((openIn ["log"]).run.run v.disk).2 (.ok rs) := by
  have hfits : Deed.Fits (some ⟨["log"], 1, 0⟩) (.appending (.ofDecision true)) := by
    have hdata : (Record.ofDecision true).data.length < Nat.pow 256 8 := by decide
    have hroom : ∀ j, some (⟨["log"], 1, 0⟩ : Journal) = some j → j.size + 1 < recordBound := by
      intro j hj
      obtain rfl := Option.some.inj hj
      decide
    exact ⟨hdata, hroom⟩
  have hvote : Deed.Fits (some ⟨["log"], 0, 0⟩) (.voting (.del "k")) :=
    show (Record.ofVote (.del "k")).data.length < Nat.pow 256 8 by decide
  obtain ⟨d, d', hopen, hvoted⟩ : ∃ d d', (openIn ["log"]).run.run Disk.empty =
      (.ok ⟨["log"], 0, 0⟩, d) ∧ (vote ⟨["log"], 0, 0⟩ (.del "k")).run.run d =
        (.ok ⟨["log"], 1, 0⟩, d') := ⟨_, _, rfl, rfl⟩
  have hfirst : Step ["log"] ⟨Disk.empty, none⟩ (.opening, true) ⟨d, some ⟨["log"], 0, 0⟩⟩ :=
    .of_run trivial rfl hopen
  have hsecond : Step ["log"] ⟨d, some ⟨["log"], 0, 0⟩⟩ (.voting (.del "k"), true)
      ⟨d', some ⟨["log"], 1, 0⟩⟩ := .of_run hvote rfl hvoted
  have hcut : Step ["log"] ⟨d', some ⟨["log"], 1, 0⟩⟩ (.appending (.ofDecision true), false) _ :=
    .cut hfits rfl (Action.run_mem_trail _ _)
  have hrun := ((Run.start.step hfirst).step hsecond).step hcut
  obtain ⟨rs, hmem, hread, -⟩ := read_after_interruption proper_empty
    (vacant_empty ["log"]).clear (Holds.nil rfl) countable_nil hrun
  exact ⟨_, hrun, rs, hmem, hread⟩

end Journal

end RingStore
