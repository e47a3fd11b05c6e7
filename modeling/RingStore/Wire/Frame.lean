import RingStore.Wire.Codec

/-!
# Frames

A message travels as one frame: the length of its encoding in four bytes, the greatest first, then
the encoding. A frame holds at most 2^20 bytes, on both ends. A server need not wait for what comes
behind a settled frame (`Frame.unwrap_append`).
-/

namespace RingStore

namespace Frame

/-- The most bytes that a frame may hold. -/
def limit : Nat := 1048576

/-- Four bytes that tell the length of a frame. -/
def header (size : Nat) : Bytes := (Wire.number 4 size).reverse

/-- The frame around an encoding, if it fits. -/
def wrap (body : Bytes) : Except Fault Bytes :=
  if limit < body.length then .error (.io .frameTooLarge) else .ok (header body.length ++ body)

/-- The frame of a message. -/
def write [Wire α] (message : α) : Except Fault Bytes := wrap (Wire.encode message)

/-- Takes the body of one frame from a stream that ends after the given bytes, and says what is left
of them. Bytes that a stream ends within are used up; of an over-long frame only the header is. -/
def unwrap : Bytes → Except Fault Bytes × Bytes
  | a :: b :: c :: d :: rest =>
    let size := Wire.ofNumber [d, c, b, a]
    if limit < size then (.error (.io (.frameOverLimit size)), rest)
    else
      let body := rest.take size
      if body.length < size then (.error (.io .earlyEnd), []) else (.ok body, rest.drop size)
  | _ => (.error (.io .earlyEnd), [])

/-- The bytes hold a frame, or the header of an over-long one: whatever follows them, the first
frame is settled. -/
def isSettled : Bytes → Bool
  | a :: b :: c :: d :: rest =>
    let size := Wire.ofNumber [d, c, b, a]
    limit < size || size ≤ rest.length
  | _ => false

/-- What follows a settled frame does not matter to it. -/
theorem unwrap_append {bs : Bytes} (h : isSettled bs) (more : Bytes) :
    (unwrap (bs ++ more)).1 = (unwrap bs).1 := by
  match bs with
  | a :: b :: c :: d :: rest =>
    simp only [isSettled, Bool.or_eq_true, decide_eq_true_eq] at h
    simp only [List.cons_append, unwrap]
    split
    · rfl
    · next fits =>
      have whole : Wire.ofNumber [d, c, b, a] ≤ rest.length := h.resolve_left fits
      simp [List.take_append_of_le_length whole, Nat.min_eq_left whole]
  | [] | [_] | [_, _] | [_, _, _] => simp [isSettled] at h

/-- Takes one message from a stream that ends after the given bytes. -/
def read [Wire α] (stream : Bytes) : Except Fault α × Bytes :=
  match unwrap stream with
  | (.ok body, rest) => ((Wire.ofBytes body).mapError .codec, rest)
  | (.error f, rest) => (.error f, rest)

/-- Takes messages from a stream until `count` are taken or one fails, and says what is left. -/
def readMany [Wire α] : Nat → Bytes → List (Except Fault α) × Bytes
  | 0, stream => ([], stream)
  | count + 1, stream =>
    match read stream with
    | (.ok message, rest) =>
      let (more, left) := readMany count rest
      (.ok message :: more, left)
    | (.error f, rest) => ([.error f], rest)

end Frame

end RingStore
