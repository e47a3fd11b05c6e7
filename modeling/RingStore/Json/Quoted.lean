import RingStore.Json

/-!
# Reading quoted JSON texts

Between the quotes stand UTF-8 bytes from the blank on, and escapes. A character outside the basic
plane may be escaped as two surrogates, the high one first; a surrogate alone is refused.
-/

namespace RingStore

namespace Json

/-- The value of a hexadecimal digit. -/
def hexValue? (b : UInt8) : Option Nat :=
  if 48 ≤ b ∧ b ≤ 57 then some (b.toNat - 48)
  else if 65 ≤ b ∧ b ≤ 70 then some (b.toNat - 55)
  else if 97 ≤ b ∧ b ≤ 102 then some (b.toNat - 87)
  else none

/-- The value of four hexadecimal digits, and what follows them. -/
def readUnit : Bytes → Option (Nat × Bytes)
  | a :: b :: c :: d :: rest => do
    return ((← hexValue? a) * 4096 + (← hexValue? b) * 256 + (← hexValue? c) * 16 + (← hexValue? d),
      rest)
  | _ => none

/-- The byte that a short escape stands for. -/
def shortEscape? (b : UInt8) : Option UInt8 :=
  if b = 34 ∨ b = 92 ∨ b = 47 then some b
  else if b = 98 then some 8
  else if b = 102 then some 12
  else if b = 110 then some 10
  else if b = 114 then some 13
  else if b = 116 then some 9
  else none

/-- Reads the code point of an escape by number, behind its `u`. -/
def readCodePoint (bs : Bytes) : Option (Nat × Bytes) :=
  match readUnit bs with
  | none => none
  | some (high, rest) =>
    if 0xDC00 ≤ high ∧ high < 0xE000 then none
    else if 0xD800 ≤ high ∧ high < 0xDC00 then
      match rest with
      | 92 :: 117 :: more =>
        match readUnit more with
        | none => none
        | some (low, rest) =>
          if 0xDC00 ≤ low ∧ low < 0xE000 then
            some (0x10000 + (high - 0xD800) * 0x400 + (low - 0xDC00), rest)
          else none
      | _ => none
    else some (high, rest)

/-- The bytes that an escape stands for, read behind its backslash, and what follows it. -/
def readEscape : Bytes → Option (Bytes × Bytes)
  | [] => none
  | c :: rest =>
    if c = 117 then
      (readCodePoint rest).map fun (n, rest) => (Text.bytes (String.singleton (Char.ofNat n)), rest)
    else (shortEscape? c).map fun b => ([b], rest)

/-- Passes over an escape behind its backslash. Any four hexadecimal digits will do for a number. -/
def skipEscape : Bytes → Option Bytes
  | [] => none
  | c :: rest =>
    if c = 117 then (readUnit rest).map (·.2) else (shortEscape? c).map fun _ => rest

theorem length_of_readUnit {bs rest : Bytes} {n : Nat} (h : readUnit bs = some (n, rest)) :
    rest.length ≤ bs.length := by
  unfold readUnit at h
  split at h
  · simp only [Option.pure_def, Option.bind_eq_bind, Option.bind_eq_some_iff, Option.some.injEq,
      Prod.mk.injEq] at h
    obtain ⟨_, _, _, _, _, _, _, _, _, rfl⟩ := h
    simp only [List.length_cons]
    omega
  · cases h

theorem length_of_readCodePoint {bs rest : Bytes} {n : Nat}
    (h : readCodePoint bs = some (n, rest)) :
    rest.length ≤ bs.length := by
  unfold readCodePoint at h
  split at h
  · cases h
  · next high behind first =>
    have shorter := length_of_readUnit first
    split at h
    · cases h
    · split at h
      · split at h
        · split at h
          · cases h
          · next second =>
            have := length_of_readUnit second
            grind
        · cases h
      · grind

theorem length_of_readEscape {bs content rest : Bytes} (h : readEscape bs = some (content, rest)) :
    rest.length ≤ bs.length := by
  match bs with
  | [] => cases h
  | c :: more =>
    simp only [readEscape] at h
    split at h
    · obtain ⟨⟨n, behind⟩, found, h⟩ := Option.map_eq_some_iff.1 h
      have := length_of_readCodePoint found
      grind
    · obtain ⟨b, _, h⟩ := Option.map_eq_some_iff.1 h
      grind

theorem length_of_skipEscape {bs rest : Bytes} (h : skipEscape bs = some rest) :
    rest.length ≤ bs.length := by
  match bs with
  | [] => cases h
  | c :: more =>
    simp only [skipEscape] at h
    split at h
    · obtain ⟨⟨n, behind⟩, found, h⟩ := Option.map_eq_some_iff.1 h
      have := length_of_readUnit found
      grind
    · obtain ⟨b, _, h⟩ := Option.map_eq_some_iff.1 h
      grind

/-- Reads on behind the opening quote, with the bytes so far given backwards. -/
def readQuotedFrom (sofar : Bytes) : Bytes → Option (Bytes × Bytes)
  | [] => none
  | b :: rest =>
    if b = 34 then some (sofar.reverse, rest)
    else if b = 92 then
      match h : readEscape rest with
      | some (content, more) =>
        have := length_of_readEscape h
        readQuotedFrom (content.reverse ++ sofar) more
      | none => none
    else if b < 32 then none
    else readQuotedFrom (b :: sofar) rest
termination_by bs => bs.length

/-- Reads a text behind its opening quote. -/
def readQuoted (bs : Bytes) : Option (String × Bytes) := do
  let (content, rest) ← readQuotedFrom [] bs
  return (← Text.ofBytes? content, rest)

/-- Passes over a text behind its opening quote. Its bytes and code points are not looked at. -/
def skipQuoted : Bytes → Option Bytes
  | [] => none
  | b :: rest =>
    if b = 34 then some rest
    else if b = 92 then
      match h : skipEscape rest with
      | some more =>
        have := length_of_skipEscape h
        skipQuoted more
      | none => none
    else if b < 32 then none
    else skipQuoted rest
termination_by bs => bs.length

theorem length_of_skipQuoted {bs rest : Bytes} (h : skipQuoted bs = some rest) :
    rest.length ≤ bs.length := by
  fun_induction skipQuoted bs <;> grind

end Json

end RingStore
