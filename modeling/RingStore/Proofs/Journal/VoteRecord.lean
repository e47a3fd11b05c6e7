import RingStore.Proofs.Wire.RoundTrip

/-!
# What the record of a vote tells

A record of a vote holds the key and the value as fields that end at a zero byte. The operation is
read back from the record exactly if neither the key nor the value has a zero byte: a zero byte
inside a text ends its field early, and what follows it is taken for the next field.
-/

namespace RingStore

/-- Neither the key nor the value has a zero byte. -/
def Operation.ZeroFree (op : Operation) : Prop :=
  0 ∉ Text.bytes op.key ∧ ∀ v ∈ op.value?, 0 ∉ Text.bytes v

instance (op : Operation) : Decidable op.ZeroFree :=
  inferInstanceAs (Decidable (_ ∧ _))

/-- The operation that the bytes of a record's file tell of. -/
def Record.operationIn? (bs : Bytes) : Option Operation :=
  match (Wire.ofBytes bs : Except CodecFault Record) with
  | .ok r => r.operation?
  | .error _ => none

namespace Record

/-- The first field ends at the first zero byte. -/
theorem splitFields_append (current bs rest : Bytes) (h : 0 ∉ bs) :
    splitFields current (bs ++ 0 :: rest) = (current.reverse ++ bs) :: splitFields [] rest := by
  induction bs generalizing current with
  | nil => simp [splitFields]
  | cons b bs ih =>
    rw [List.mem_cons, not_or] at h
    obtain ⟨hb, hbs⟩ := h
    simp [splitFields, Ne.symm hb, ih _ hbs]

theorem splitFields_field {s : String} (rest : Bytes) (h : 0 ∉ Text.bytes s) :
    splitFields [] (field s ++ rest) = Text.bytes s :: splitFields [] rest := by
  rw [field, List.append_assoc, List.singleton_append, splitFields_append [] _ _ h]
  rfl

/-- A text that is read back from its field has no zero byte: the field would be shorter. -/
theorem zero_notMem_of_head {s : String} {rest : Bytes}
    (h : (splitFields [] (field s ++ rest))[0]?.bind Text.ofBytes? = some s) :
    0 ∉ Text.bytes s := by
  intro hmem
  obtain ⟨front, back, hs, hfront⟩ := List.eq_append_cons_of_mem hmem
  have hfields : splitFields [] (field s ++ rest) =
      front :: splitFields [] (back ++ 0 :: rest) := by
    rw [field, hs, List.append_assoc, List.append_assoc, List.cons_append,
      splitFields_append [] _ _ hfront]
    simp
  rw [hfields] at h
  have hlen := congrArg List.length (Text.ofBytes?_eq_some.1 (by simpa using h))
  rw [hs] at hlen
  simp at hlen

theorem fields_ofVote_put (key value : String) :
    (ofVote (.put key value)).fields = splitFields [] (field key ++ (field value ++ [])) := by
  simp [fields, ofVote, create, Operation.key, Operation.value?]

theorem fields_ofVote_del (key : String) :
    (ofVote (.del key)).fields = splitFields [] (field key ++ []) := by
  simp [fields, ofVote, create, Operation.key, Operation.value?]

theorem operation?_ofVote_put (key value : String) :
    (ofVote (.put key value)).operation? = some (.put key value) ↔
      0 ∉ Text.bytes key ∧ 0 ∉ Text.bytes value := by
  have hkind : (ofVote (.put key value)).kind = .put := rfl
  constructor
  · intro h
    simp only [operation?, hkind, key?, value?, fields_ofVote_put, Option.bind_eq_bind,
      Option.pure_def, Option.bind_eq_some_iff, Option.some.injEq, Operation.put.injEq] at h
    obtain ⟨k, hk, v, hv, rfl, rfl⟩ := h
    have hkey : 0 ∉ Text.bytes k := zero_notMem_of_head (Option.bind_eq_some_iff.2 hk)
    rw [splitFields_field _ hkey] at hv
    exact ⟨hkey, zero_notMem_of_head (Option.bind_eq_some_iff.2 hv)⟩
  · rintro ⟨hkey, hvalue⟩
    rw [operation?, hkind, key?, value?, fields_ofVote_put, splitFields_field _ hkey,
      splitFields_field _ hvalue]
    simp

theorem operation?_ofVote_del (key : String) :
    (ofVote (.del key)).operation? = some (.del key) ↔ 0 ∉ Text.bytes key := by
  have hkind : (ofVote (.del key)).kind = .del := rfl
  constructor
  · intro h
    simp only [operation?, hkind, key?, fields_ofVote_del, Option.bind_eq_bind, Option.pure_def,
      Option.bind_eq_some_iff, Option.some.injEq, Operation.del.injEq] at h
    obtain ⟨k, hk, rfl⟩ := h
    exact zero_notMem_of_head (Option.bind_eq_some_iff.2 hk)
  · intro hkey
    rw [operation?, hkind, key?, fields_ofVote_del, splitFields_field _ hkey]
    simp

/-- The operation of a vote's record is the one voted on exactly if it has no zero byte. -/
theorem operation?_ofVote_iff (op : Operation) :
    (ofVote op).operation? = some op ↔ op.ZeroFree := by
  cases op with
  | put key value =>
    simp [operation?_ofVote_put, Operation.ZeroFree, Operation.key, Operation.value?]
  | del key => simp [operation?_ofVote_del, Operation.ZeroFree, Operation.key, Operation.value?]

/-- The data of a vote's record on an operation within the limits are far from filling its file. -/
theorem length_data_ofVote {op : Operation} (h : op.check = .ok ()) :
    (ofVote op).data.length ≤ maxKeyBytes + maxValueBytes + 2 := by
  cases op with
  | put key value =>
    obtain ⟨hkey, hvalue⟩ := checkPair_eq_ok.1 h
    simp [ofVote, create, field, Operation.key, Operation.value?, Text.length_bytes]
    omega
  | del key =>
    have hkey := checkKey_eq_ok.1 h
    simp [ofVote, create, field, Operation.key, Operation.value?, Text.length_bytes]
    omega

theorem length_data_ofVote_lt {op : Operation} (h : op.check = .ok ()) :
    (ofVote op).data.length < Nat.pow 256 8 := by
  have hlen := length_data_ofVote h
  have hbig : maxKeyBytes + maxValueBytes + 2 < Nat.pow 256 8 := by decide
  omega

theorem ofBytes_ofVote {op : Operation} (h : op.check = .ok ()) :
    Wire.ofBytes (Wire.encode (ofVote op)) = .ok (ofVote op) :=
  ofBytes_encode _ (length_data_ofVote_lt h)

/-- The operation that a record tells of, if it tells of one, is within the limits. -/
def Checked (r : Record) : Prop := ∀ op ∈ r.operation?, op.check = .ok ()

theorem checked_ofVote {op : Operation} (hcheck : op.check = .ok ()) (hfree : op.ZeroFree) :
    (ofVote op).Checked := by
  intro op' hop'
  rw [(operation?_ofVote_iff op).2 hfree] at hop'
  exact Option.some.inj hop' ▸ hcheck

/-- A zero byte only makes fields shorter: the first is no longer than what comes before the end of
its field, and those behind it are no longer either, or come from the rest. -/
theorem splitFields_short (current bs rest : Bytes) :
    ∃ first more, splitFields current (bs ++ 0 :: rest) = first :: more ∧
      first.length ≤ current.length + bs.length ∧
      ∀ f ∈ more, f.length ≤ bs.length ∨ f ∈ splitFields [] rest := by
  induction bs generalizing current with
  | nil => exact ⟨current.reverse, _, by simp [splitFields], by simp, fun f hf => .inr hf⟩
  | cons b bs ih =>
    by_cases hb : b = 0
    · obtain ⟨first, more, heq, hfirst, hmore⟩ := ih []
      refine ⟨current.reverse, first :: more, by simp [splitFields, hb, heq], by simp,
        fun f hf => ?_⟩
      rw [List.length_nil, Nat.zero_add] at hfirst
      rcases List.mem_cons.1 hf with rfl | hf
      · exact .inl (Nat.le_succ_of_le hfirst)
      · exact (hmore f hf).imp_left Nat.le_succ_of_le
    · obtain ⟨first, more, heq, hfirst, hmore⟩ := ih (b :: current)
      refine ⟨first, more, by simp [splitFields, hb, heq], ?_, fun f hf =>
        (hmore f hf).imp_left Nat.le_succ_of_le⟩
      rw [List.length_cons] at hfirst ⊢
      omega

/-- The fields of a vote's record are within the limits, also where a zero byte shifts them: what is
taken for the value is a part of the value or of the key. -/
theorem fields_short {op : Operation} (h : op.check = .ok ()) :
    ∃ first more, (ofVote op).fields = first :: more ∧ first.length ≤ maxKeyBytes ∧
      ∀ f ∈ more, f.length ≤ maxValueBytes := by
  have hlimits : maxKeyBytes ≤ maxValueBytes := by decide
  cases op with
  | put key value =>
    obtain ⟨hkey, hvalue⟩ := checkPair_eq_ok.1 h
    rw [← Text.length_bytes] at hkey hvalue
    obtain ⟨first, more, heq, hfirst, hmore⟩ :=
      splitFields_short [] (Text.bytes key) (field value ++ [])
    obtain ⟨second, rest, heq', hsecond, hrest⟩ := splitFields_short [] (Text.bytes value) []
    rw [List.length_nil, Nat.zero_add] at hfirst hsecond
    refine ⟨first, more, ?_, by omega, fun f hf => ?_⟩
    · rw [fields_ofVote_put, ← heq]
      simp [field]
    · rcases hmore f hf with hshort | hf
      · omega
      · rw [field, List.append_nil, heq'] at hf
        rcases List.mem_cons.1 hf with rfl | hf
        · omega
        · rcases hrest f hf with hshort | hf
          · omega
          · exact absurd hf (by simp [splitFields])
  | del key =>
    have hkey := checkKey_eq_ok.1 h
    rw [← Text.length_bytes] at hkey
    obtain ⟨first, more, heq, hfirst, hmore⟩ := splitFields_short [] (Text.bytes key) []
    rw [List.length_nil, Nat.zero_add] at hfirst
    refine ⟨first, more, ?_, by omega, fun f hf => ?_⟩
    · rw [fields_ofVote_del, ← heq]
      simp [field]
    · rcases hmore f hf with hshort | hf
      · omega
      · exact absurd hf (by simp [splitFields])

/-- What a vote's record tells of is within the limits, even if it is not what was voted on. -/
theorem checked_ofVote_of_check {op : Operation} (hcheck : op.check = .ok ()) :
    (ofVote op).Checked := by
  obtain ⟨first, more, heq, hfirst, hmore⟩ := fields_short hcheck
  have hkey : ∀ key, (ofVote op).key? = some key → Text.size key ≤ maxKeyBytes := by
    intro key hkey
    rw [key?, heq] at hkey
    rw [← Text.length_bytes, ← Text.ofBytes?_eq_some.1 (by simpa using hkey)]
    exact hfirst
  have hvalue : ∀ value, (ofVote op).value? = some value → Text.size value ≤ maxValueBytes := by
    intro value hvalue
    rw [value?, heq] at hvalue
    obtain ⟨f, hf, hvalue⟩ := Option.bind_eq_some_iff.1 hvalue
    rw [← Text.length_bytes, ← Text.ofBytes?_eq_some.1 hvalue]
    exact hmore f (List.mem_of_getElem? (by simpa using hf))
  intro op' hop'
  cases op with
  | put key value =>
    simp only [operation?, show (ofVote (.put key value)).kind = .put from rfl, Option.bind_eq_bind,
      Option.pure_def, Option.mem_def, Option.bind_eq_some_iff, Option.some.injEq] at hop'
    obtain ⟨k, hk, v, hv, rfl⟩ := hop'
    exact checkPair_eq_ok.2 ⟨hkey k hk, hvalue v hv⟩
  | del key =>
    simp only [operation?, show (ofVote (.del key)).kind = .del from rfl, Option.bind_eq_bind,
      Option.pure_def, Option.mem_def, Option.bind_eq_some_iff, Option.some.injEq] at hop'
    obtain ⟨k, hk, rfl⟩ := hop'
    exact checkKey_eq_ok.2 (hkey k hk)

theorem checked_ofDecision (b : Bool) : (ofDecision b).Checked := by
  cases b <;> simp [Checked, operation?, ofDecision, create, key?, fields, splitFields]

end Record

/-- An operation within the limits is read back from the file of its vote exactly if neither its key
nor its value has a zero byte. -/
theorem Operation.recovers_iff_zeroFree (op : Operation) (h : op.check = .ok ()) :
    Record.operationIn? (Wire.encode (Record.ofVote op)) = some op ↔ op.ZeroFree := by
  rw [Record.operationIn?, Record.ofBytes_ofVote h]
  exact Record.operation?_ofVote_iff op

theorem Operation.recovers_of_accented_key :
    (put "cl\u00e9" "").check = .ok () ∧
      Record.operationIn? (Wire.encode (Record.ofVote (put "cl\u00e9" ""))) =
        some (put "cl\u00e9" "") :=
  ⟨by decide, (recovers_iff_zeroFree _ (by decide)).2 (by decide)⟩

/-- A zero byte cuts the key short, and the rest of the key becomes the value. -/
theorem Operation.zero_byte_cuts_key :
    (put "a\x00b" "v").check = .ok () ∧
      Record.operationIn? (Wire.encode (Record.ofVote (put "a\x00b" "v"))) =
        some (put "a" "b") := by
  decide

end RingStore
