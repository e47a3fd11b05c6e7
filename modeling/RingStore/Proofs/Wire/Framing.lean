import RingStore.Proofs.Wire.RoundTrip
import RingStore.Wire.Frame
import RingStore.Wire.Messages

/-!
# Streams of frames

What one end of a connection writes, the other end reads. A frame is a header of four bytes and a
body, and both ends hold to the same limit, so that a message that was written is never refused. A
stream that ends early gives the messages whose frames are whole and then fails: no cut makes a
message of the bytes that are left.
-/

namespace RingStore

open Wire

namespace Wire

@[simp] theorem length_text (s : String) : (text s).length = 8 + (Text.bytes s).length := by
  simp [text, block]

/-- Bytes are the encoding of the number that they stand for. -/
theorem number_ofNumber (bs : Bytes) : number bs.length (ofNumber bs) = bs := by
  induction bs with
  | nil => rfl
  | cons b rest ih =>
    have hb : b.toNat < 256 := b.toNat_lt
    have hdiv : (b.toNat + 256 * ofNumber rest) / 256 = ofNumber rest := by omega
    have hmod : UInt8.ofNat (b.toNat + 256 * ofNumber rest) = b := by
      apply UInt8.toNat_inj.1
      rw [UInt8.toNat_ofNat']
      omega
    rw [List.length_cons, ofNumber, number, hdiv, hmod, ih]

end Wire

/-! ## Messages are read back -/

/-- Every request is read back from what it is written as. -/
theorem Request.reads_decode (q : Request) (h : (encode q).length < Nat.pow 256 8) :
    Reads decode (encode q) q := by
  have chosen (i : Nat) (hi : i < 7) := reads_takeAlternative hi (by decide : 7 < Nat.pow 256 4)
  cases q with
  | get key =>
    simp only [encode, List.length_append, length_text] at h
    have hkey : (Text.bytes key).length < Nat.pow 256 8 := by omega
    refine (chosen 0 (by decide)).bind ?_
    dsimp only
    exact (reads_takeText hkey).map get
  | put key value =>
    simp only [encode, List.length_append, length_text] at h
    have hkey : (Text.bytes key).length < Nat.pow 256 8 := by omega
    have hvalue : (Text.bytes value).length < Nat.pow 256 8 := by omega
    simp only [encode, List.append_assoc]
    refine (chosen 1 (by decide)).bind ?_
    dsimp only
    exact (reads_takeText hkey).bind ((reads_takeText hvalue).map (put key))
  | del key =>
    simp only [encode, List.length_append, length_text] at h
    have hkey : (Text.bytes key).length < Nat.pow 256 8 := by omega
    refine (chosen 2 (by decide)).bind ?_
    dsimp only
    exact (reads_takeText hkey).map del
  | register host port =>
    simp only [encode, List.length_append, length_text] at h
    have hhost : (Text.bytes host).length < Nat.pow 256 8 := by omega
    have hlt : port.toNat < Nat.pow 256 2 := port.toNat_lt
    have hport := (reads_takeNumber hlt).map fun n => register host (UInt16.ofNat n)
    rw [UInt16.ofNat_toNat] at hport
    simp only [encode, List.append_assoc]
    refine (chosen 3 (by decide)).bind ?_
    dsimp only
    exact (reads_takeText hhost).bind hport
  | info => exact (chosen 4 (by decide)).bind_last (Reads.pure _)
  | commit => exact (chosen 5 (by decide)).bind_last (Reads.pure _)
  | abort => exact (chosen 6 (by decide)).bind_last (Reads.pure _)

/-- Every response is read back from what it is written as. -/
theorem Response.reads_decode (r : Response) (h : (encode r).length < Nat.pow 256 8) :
    Reads decode (encode r) r := by
  have chosen (i : Nat) (hi : i < 5) := reads_takeAlternative hi (by decide : 5 < Nat.pow 256 4)
  cases r with
  | report message =>
    simp only [encode, List.length_append, length_text] at h
    have hmessage : (Text.bytes message).length < Nat.pow 256 8 := by omega
    refine (chosen 0 (by decide)).bind ?_
    dsimp only
    exact (reads_takeText hmessage).map report
  | value key value =>
    simp only [encode, List.length_append, length_text] at h
    have hkey : (Text.bytes key).length < Nat.pow 256 8 := by omega
    have hvalue : (Text.bytes value).length < Nat.pow 256 8 := by omega
    simp only [encode, List.append_assoc]
    refine (chosen 1 (by decide)).bind ?_
    dsimp only
    exact (reads_takeText hkey).bind ((reads_takeText hvalue).map (Response.value key))
  | voteCommit => exact (chosen 2 (by decide)).bind_last (Reads.pure _)
  | voteAbort message =>
    simp only [encode, List.length_append, length_text] at h
    have hmessage : (Text.bytes message).length < Nat.pow 256 8 := by omega
    refine (chosen 3 (by decide)).bind ?_
    dsimp only
    exact (reads_takeText hmessage).map voteAbort
  | ack => exact (chosen 4 (by decide)).bind_last (Reads.pure _)

namespace Frame

/-! ## One frame -/

@[simp] theorem length_header (size : Nat) : (header size).length = 4 := by simp [header]

/-- The size in the header is read back. -/
theorem ofNumber_header {size : Nat} (h : size ≤ limit) :
    ofNumber (header size).reverse = size := by
  have hsize : size < Nat.pow 256 4 := Nat.lt_of_le_of_lt h (by decide)
  rw [header, List.reverse_reverse, ofNumber_number 4 size hsize]

/-- A stream that starts with four bytes is cut by the number that these stand for. -/
theorem unwrap_of_length {head : Bytes} (h : head.length = 4) (rest : Bytes) :
    unwrap (head ++ rest) =
      if limit < ofNumber head.reverse then
        (.error (.io (.frameOverLimit (ofNumber head.reverse))), rest)
      else if (rest.take (ofNumber head.reverse)).length < ofNumber head.reverse then
        (.error (.io .earlyEnd), [])
      else (.ok (rest.take (ofNumber head.reverse)), rest.drop (ofNumber head.reverse)) := by
  match head, h with
  | [_, _, _, _], _ => rfl

/-- Fewer than four bytes are no header. -/
theorem unwrap_of_short {bs : Bytes} (h : bs.length < 4) :
    unwrap bs = (.error (.io .earlyEnd), []) := by
  match bs, h with
  | [], _ | [_], _ | [_, _], _ | [_, _, _], _ => rfl
  | _ :: _ :: _ :: _ :: _, h => simp at h; omega

/-- The body of a frame is taken out, and what follows the frame is left. -/
theorem unwrap_frame {body : Bytes} (h : body.length ≤ limit) (rest : Bytes) :
    unwrap (header body.length ++ body ++ rest) = (.ok body, rest) := by
  rw [List.append_assoc, unwrap_of_length (length_header _), ofNumber_header h,
    if_neg (Nat.not_lt.2 h), if_neg (by simp)]
  simp

/-- A stream that ends within a frame is used up and gives nothing. -/
theorem unwrap_cut {body part : Bytes} (h : body.length ≤ limit)
    (hpart : part <+: header body.length ++ body) (hcut : part ≠ header body.length ++ body) :
    unwrap part = (.error (.io .earlyEnd), []) := by
  have hlt : part.length < 4 + body.length := by
    have hle := hpart.length_le
    have hne : part.length ≠ (header body.length ++ body).length :=
      fun heq => hcut (hpart.eq_of_length heq)
    simp only [List.length_append, length_header] at hle hne
    omega
  rcases Nat.lt_or_ge part.length 4 with hshort | hlong
  · exact unwrap_of_short hshort
  · -- The header is whole, and the cut is in the body.
    obtain ⟨piece, rfl⟩ : header body.length <+: part :=
      List.prefix_of_prefix_length_le (List.prefix_append _ _) hpart (by simpa using hlong)
    rw [List.length_append, length_header] at hlt
    rw [unwrap_of_length (length_header _), ofNumber_header h, if_neg (Nat.not_lt.2 h),
      if_pos (by rw [List.length_take]; omega)]

/-- A body is taken from a stream only if a frame stands at its front. -/
theorem unwrap_eq_ok {bs body rest : Bytes} (h : unwrap bs = (.ok body, rest)) :
    bs = header body.length ++ body ++ rest ∧ body.length ≤ limit := by
  rcases Nat.lt_or_ge bs.length 4 with hshort | hlong
  · rw [unwrap_of_short hshort] at h
    cases h
  · have hhead : (bs.take 4).length = 4 := by simp [hlong]
    rw [← List.take_append_drop 4 bs, unwrap_of_length hhead] at h
    split at h
    · cases h
    next hle =>
    split at h
    · cases h
    next hpresent =>
    obtain ⟨hbody, hrest⟩ := Prod.mk.inj h
    have hlength : body.length = ofNumber (bs.take 4).reverse := by
      rw [← Except.ok.inj hbody]
      rw [List.length_take] at hpresent ⊢
      omega
    have hheader : header body.length = bs.take 4 := by
      have hnumber := number_ofNumber (bs.take 4).reverse
      rw [List.length_reverse, hhead] at hnumber
      rw [header, hlength, hnumber, List.reverse_reverse]
    refine ⟨?_, hlength ▸ Nat.not_lt.1 hle⟩
    rw [hheader, ← Except.ok.inj hbody, ← hrest, List.append_assoc, List.take_append_drop,
      List.take_append_drop]

variable {α : Type} [Wire α]

/-- The frame of a message, whether or not it may be sent. -/
def whole (message : α) : Bytes := header (encode message).length ++ encode message

/-- The encoding of a message is short enough for a frame. -/
def Fits (message : α) : Prop := (encode message).length ≤ limit

/-- A message that fits is written behind its size. -/
theorem write_of_fits {message : α} (h : Fits message) : write message = .ok (whole message) :=
  if_neg (Nat.not_lt.2 h)

/-- A message that does not fit is refused. -/
theorem write_of_not_fits {message : α} (h : ¬ Fits message) :
    write message = .error (.io .frameTooLarge) := if_pos (Nat.not_le.1 h)

theorem mapM_write {messages : List α} (h : ∀ message ∈ messages, Fits message) :
    messages.mapM write = .ok (messages.map whole) := by
  induction messages with
  | nil => rfl
  | cons message rest ih =>
    rw [List.forall_mem_cons] at h
    rw [List.mapM_cons, write_of_fits h.1, ih h.2]
    rfl

/-- A message whose encoding fits in a frame is read back from the encoding. -/
def ReadBack (α : Type) [Wire α] : Prop :=
  ∀ message : α, Fits message → ofBytes (encode message) = .ok message

variable (back : ReadBack α)

include back in
/-- A whole frame is read, whatever comes behind it. -/
theorem read_whole {message : α} (h : Fits message) (rest : Bytes) :
    read (whole message ++ rest) = (.ok message, rest) := by
  simp only [read, whole, unwrap_frame h, back message h]
  rfl

/-- A frame that is cut off is never taken for a message. -/
theorem read_cut {message : α} {part : Bytes} (h : Fits message) (hpart : part <+: whole message)
    (hcut : part ≠ whole message) :
    (read part : Except Fault α × Bytes) = (.error (.io .earlyEnd), []) := by
  rw [read, unwrap_cut h hpart hcut]

/-! ## Streams -/

include back in
/-- Frames that come one behind the other are read one after the other. -/
theorem readMany_whole {messages : List α} (h : ∀ message ∈ messages, Fits message) (rest : Bytes) :
    readMany messages.length ((messages.map whole).flatten ++ rest) = (messages.map .ok, rest) := by
  induction messages with
  | nil => rfl
  | cons message more ih =>
    rw [List.forall_mem_cons] at h
    simp only [List.map_cons, List.flatten_cons, List.append_assoc, List.length_cons, readMany,
      read_whole back h.1, ih h.2]

/-- However a stream of frames is cut, what is read from it are the messages of the frames that are
whole, and then that the stream ended early. -/
structure CutOff (messages : List α) (frames : List Bytes) (front : Bytes) (k : Nat) : Prop where
  early : k < messages.length
  complete : (frames.take k).flatten <+: front
  cut : ¬ (frames.take (k + 1)).flatten <+: front
  gives : ∀ count, k < count →
    readMany count front = ((messages.take k).map .ok ++ [.error (.io .earlyEnd)], [])

include back in
/-- A stream that is cut off is so within one of its frames. -/
theorem exists_cutOff {messages : List α} {front : Bytes}
    (h : ∀ message ∈ messages, Fits message) (hfront : front <+: (messages.map whole).flatten)
    (hcut : front ≠ (messages.map whole).flatten) :
    ∃ k, CutOff messages (messages.map whole) front k := by
  induction messages generalizing front with
  | nil => exact absurd (List.prefix_nil.1 hfront) hcut
  | cons message more ih =>
    rw [List.forall_mem_cons] at h
    rw [List.map_cons, List.flatten_cons] at hfront hcut
    by_cases hwhole : whole message <+: front
    · -- The first frame is whole, and the rest of the stream is cut.
      obtain ⟨tail, rfl⟩ := hwhole
      rw [List.prefix_append_right_inj] at hfront
      obtain ⟨k, hk⟩ := ih h.2 hfront fun heq => hcut (by rw [heq])
      refine ⟨k + 1, by simpa using hk.early, ?_, ?_, fun count hlt => ?_⟩
      · simpa [List.prefix_append_right_inj] using hk.complete
      · simpa [List.prefix_append_right_inj] using hk.cut
      · obtain ⟨count, rfl⟩ : ∃ n, count = n + 1 := ⟨count - 1, by omega⟩
        simp [readMany, read_whole back h.1, hk.gives count (by omega)]
    · have hpart : front <+: whole message :=
        (List.prefix_or_prefix_of_prefix hfront (List.prefix_append _ _)).resolve_right hwhole
      refine ⟨0, by simp, by simp, by simpa using hwhole, fun count hlt => ?_⟩
      obtain ⟨count, rfl⟩ : ∃ n, count = n + 1 := ⟨count - 1, by omega⟩
      have hne : front ≠ whole message := fun heq => hwhole (heq ▸ List.prefix_refl _)
      simp [readMany, read_cut h.1 hpart hne]

/-- What both ends of a connection rely on when they exchange messages of one type. -/
structure Faithful (α : Type) [Wire α] : Prop where
  /-- The writer refuses a message exactly if its encoding is too long. -/
  refused : ∀ (message : α) (f : Fault),
    write message = .error f ↔ limit < (encode message).length ∧ f = .io .frameTooLarge
  /-- The reader refuses a header exactly if it announces too long an encoding. -/
  overLong : ∀ (a b c d : UInt8) (rest : Bytes) (size : Nat),
    (read (a :: b :: c :: d :: rest) : Except Fault α × Bytes).1 =
        .error (.io (.frameOverLimit size)) ↔
      size = ((a.toNat * 256 + b.toNat) * 256 + c.toNat) * 256 + d.toNat ∧ limit < size
  /-- What was written is read back, and no byte behind it is touched. -/
  accepted : ∀ (message : α) (sent : Bytes), write message = .ok sent →
    ∀ rest, read (sent ++ rest) = (.ok message, rest)
  /-- The frames of a list of messages give this list back, and a cut within them only ends it. -/
  stream : ∀ messages : List α, (∀ message ∈ messages, (encode message).length ≤ limit) →
    ∃ frames, messages.mapM write = .ok frames ∧
      (∀ rest, readMany messages.length (frames.flatten ++ rest) = (messages.map .ok, rest)) ∧
      ∀ front, front <+: frames.flatten → front ≠ frames.flatten →
        ∃ k, CutOff messages frames front k

theorem write_eq_error {message : α} {f : Fault} :
    write message = .error f ↔ limit < (encode message).length ∧ f = .io .frameTooLarge := by
  by_cases h : Fits message
  · rw [write_of_fits h]
    exact ⟨fun heq => (nomatch heq), fun hlt => absurd hlt.1 (Nat.not_lt.2 h)⟩
  · rw [write_of_not_fits h, Except.error.injEq]
    exact ⟨fun heq => ⟨Nat.not_le.1 h, heq.symm⟩, fun hlt => hlt.2.symm⟩

/-- A header is refused exactly if its size is over the limit. -/
theorem read_eq_frameOverLimit {a b c d : UInt8} {rest : Bytes} {size : Nat} :
    (read (a :: b :: c :: d :: rest) : Except Fault α × Bytes).1 =
        .error (.io (.frameOverLimit size)) ↔
      size = ((a.toNat * 256 + b.toNat) * 256 + c.toNat) * 256 + d.toNat ∧ limit < size := by
  have hsize : ofNumber [d, c, b, a] =
      ((a.toNat * 256 + b.toNat) * 256 + c.toNat) * 256 + d.toNat := by
    simp only [ofNumber]
    omega
  rw [← hsize]
  by_cases hover : limit < ofNumber [d, c, b, a]
  · simp only [read, unwrap, if_pos hover, Except.error.injEq, Fault.io.injEq,
      IoFault.frameOverLimit.injEq]
    exact ⟨fun heq => ⟨heq.symm, heq ▸ hover⟩, fun h => h.1.symm⟩
  · refine ⟨fun h => ?_, fun h => absurd (h.1 ▸ h.2) hover⟩
    simp only [read, unwrap, if_neg hover] at h
    by_cases hpresent : (rest.take (ofNumber [d, c, b, a])).length < ofNumber [d, c, b, a]
    · simp only [if_pos hpresent] at h
      cases h
    · -- The reader does not look into the length again: what fails now is the decoder.
      simp only [if_neg hpresent] at h
      cases hbody : (ofBytes (rest.take (ofNumber [d, c, b, a])) : Except CodecFault α) with
      | ok message =>
        rw [hbody] at h
        cases h
      | error f =>
        rw [hbody] at h
        cases h

include back in
/-- What is read back from its bytes is read back from its frames. -/
theorem ReadBack.faithful : Faithful α where
  refused _ _ := write_eq_error
  overLong _ _ _ _ _ _ := read_eq_frameOverLimit
  accepted message sent h rest := by
    by_cases hfits : Fits message
    · rw [write_of_fits hfits] at h
      rw [← Except.ok.inj h, read_whole back hfits]
    · rw [write_of_not_fits hfits] at h
      cases h
  stream messages h := ⟨messages.map whole, mapM_write h, readMany_whole back h,
    fun _ hfront hcut => exists_cutOff back h hfront hcut⟩

theorem readBack_request : ReadBack Request := fun q h =>
  (q.reads_decode (Nat.lt_of_le_of_lt h (by decide))).ofBytes

theorem readBack_response : ReadBack Response := fun r h =>
  (r.reads_decode (Nat.lt_of_le_of_lt h (by decide))).ofBytes

/-- Requests and responses pass through a connection unchanged: each message that the writer lets
through is read back, in the order of writing and with no byte left, both ends refuse the same
lengths, and a stream that ends early never gives a message that was not written. -/
theorem faithful_request_response : Faithful Request ∧ Faithful Response :=
  ⟨readBack_request.faithful, readBack_response.faithful⟩

example : readMany 2 ((whole Request.info ++ whole Request.commit).take 11) =
    ([.ok Request.info, .error (.io .earlyEnd)], []) := by rfl

end Frame

end RingStore
