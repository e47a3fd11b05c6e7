import RingStore.Json.Number
import RingStore.Json.Quoted

/-!
# Reading JSON values

`readValue` reads the value at the front of the bytes and tells what follows it. Lists and objects
may be nested only so deep. `skipValue` passes over a value that nobody asked for: it has to be well
formed, but may be nested to any depth and may hold numbers out of range.
-/

namespace RingStore

namespace Json

/-- Blanks between the parts of a value. -/
def isBlank (b : UInt8) : Bool := b = 32 || b = 9 || b = 10 || b = 13

/-- The bytes from the first that is no blank on. -/
def skipBlanks (bs : Bytes) : Bytes := bs.dropWhile isBlank

/-- What follows the given bytes, if the input begins with them. -/
def expect : List UInt8 → Bytes → Option Bytes
  | [], bs => some bs
  | _ :: _, [] => none
  | c :: word, b :: bs => if b = c then expect word bs else none

/-- The constant that begins with a letter, and its other letters. -/
def constant? (b : UInt8) : Option (Json × List UInt8) :=
  if b = 110 then some (null, [117, 108, 108])
  else if b = 116 then some (bool true, [114, 117, 101])
  else if b = 102 then some (bool false, [97, 108, 115, 101])
  else none

/-- The deepest nesting of lists and objects. -/
def depthLimit : Nat := 127

mutual

/-- Reads a value, in at most `steps` steps, with lists and objects nested at most `depth` deep. -/
def readFrom : Nat → Nat → Bytes → Option (Json × Bytes)
  | 0, _, _ => none
  | steps + 1, depth, bs =>
    match skipBlanks bs with
    | [] => none
    | b :: rest =>
      if b = 34 then (readQuoted rest).map fun (s, rest) => (text s, rest)
      else if b = 45 ∨ (48 ≤ b ∧ b ≤ 57) then readNumber (b :: rest)
      else if b = 91 then
        if depth = 0 then none else readItems steps (depth - 1) true [] rest
      else if b = 123 then
        if depth = 0 then none else readMembers steps (depth - 1) true [] rest
      else
        match constant? b with
        | some (value, word) => (expect word rest).map fun rest => (value, rest)
        | none => none

/-- Reads on in a list, with the items so far given backwards. -/
def readItems : Nat → Nat → Bool → List Json → Bytes → Option (Json × Bytes)
  | 0, _, _, _, _ => none
  | steps + 1, depth, first, sofar, bs =>
    match skipBlanks bs with
    | [] => none
    | b :: rest =>
      if b = 93 then some (array sofar.reverse, rest)
      else
        let here := if first then some (b :: rest) else if b = 44 then some rest else none
        match here with
        | none => none
        | some bs =>
          if ¬first ∧ (skipBlanks bs).head? = some 93 then none
          else
            match readFrom steps depth bs with
            | some (item, rest) => readItems steps depth false (item :: sofar) rest
            | none => none

/-- Reads on in an object, with the members so far given backwards. -/
def readMembers : Nat → Nat → Bool → List (String × Json) → Bytes → Option (Json × Bytes)
  | 0, _, _, _, _ => none
  | steps + 1, depth, first, sofar, bs =>
    match skipBlanks bs with
    | [] => none
    | b :: rest =>
      if b = 125 then some (object (arrange sofar.reverse), rest)
      else
        let here :=
          if first then some (b :: rest) else if b = 44 then some (skipBlanks rest) else none
        match here with
        | some (34 :: name) =>
          match readQuoted name with
          | some (name, rest) =>
            match skipBlanks rest with
            | 58 :: rest =>
              match readFrom steps depth rest with
              | some (value, rest) =>
                readMembers steps depth false ((name, value) :: sofar) rest
              | none => none
            | _ => none
          | none => none
        | _ => none

end

/-- Reads a value with lists and objects nested at most `depth` deep. -/
def readValue (depth : Nat) (bs : Bytes) : Option (Json × Bytes) :=
  readFrom (2 * bs.length + 2) depth bs

/-- Passes over the digits at the front, of which there must be one. -/
def skipDigits (bs : Bytes) : Option Bytes :=
  let (digits, rest) := digitRun bs
  if digits.isEmpty then none else some rest

/-- Passes over the point of a number and the digits behind it, if there is a point. -/
def skipFraction : Bytes → Option Bytes
  | 46 :: rest => skipDigits rest
  | bs => some bs

/-- Passes over the exponent of a number, if there is one. -/
def skipExponent : Bytes → Option Bytes
  | b :: c :: rest =>
    if b = 101 ∨ b = 69 then skipDigits (if c = 43 ∨ c = 45 then rest else c :: rest)
    else some (b :: c :: rest)
  | [b] => if b = 101 ∨ b = 69 then none else some [b]
  | [] => some []

/-- Passes over a number behind its sign. -/
def skipNumber (bs : Bytes) : Option Bytes :=
  let (digits, rest) := digitRun bs
  match digits with
  | [] => none
  | 0 :: _ :: _ => none
  | _ => (skipFraction rest).bind skipExponent

/-- Passes over a value that is no list and no object, its first byte being `b`. -/
def skipScalar (b : UInt8) (rest : Bytes) : Option Bytes :=
  if b = 34 then skipQuoted rest
  else if b = 45 then skipNumber rest
  else if 48 ≤ b ∧ b ≤ 57 then skipNumber (b :: rest)
  else
    match constant? b with
    | some (_, word) => expect word rest
    | none => none

theorem length_of_skipBlanks {bs rest : Bytes} {b : UInt8} (h : skipBlanks bs = b :: rest) :
    rest.length < bs.length := by
  have := (List.dropWhile_suffix isBlank (l := bs)).length_le
  rw [← skipBlanks, h, List.length_cons] at this
  omega

theorem length_of_expect {word bs rest : Bytes} (h : expect word bs = some rest) :
    rest.length ≤ bs.length := by
  fun_induction expect word bs <;> grind

theorem length_of_skipDigits {bs rest : Bytes} (h : skipDigits bs = some rest) :
    rest.length ≤ bs.length := by
  have := length_digitRun bs
  unfold skipDigits at h
  grind

theorem length_of_skipFraction {bs rest : Bytes} (h : skipFraction bs = some rest) :
    rest.length ≤ bs.length := by
  unfold skipFraction at h
  split at h
  · have := length_of_skipDigits h
    grind
  · grind

theorem length_of_skipExponent {bs rest : Bytes} (h : skipExponent bs = some rest) :
    rest.length ≤ bs.length := by
  unfold skipExponent at h
  split at h
  · split at h
    · have := length_of_skipDigits h
      grind
    · grind
  · grind
  · grind

theorem length_of_skipNumber {bs rest : Bytes} (h : skipNumber bs = some rest) :
    rest.length < bs.length := by
  have whole := length_digitRun bs
  unfold skipNumber at h
  dsimp only at h
  split at h
  · cases h
  · cases h
  · next nonempty _ =>
    obtain ⟨behind, found, h⟩ := Option.bind_eq_some_iff.1 h
    have := length_of_skipFraction found
    have := length_of_skipExponent h
    have := List.length_pos_iff.2 nonempty
    omega

theorem length_of_skipScalar {b : UInt8} {bs rest : Bytes} (h : skipScalar b bs = some rest) :
    rest.length ≤ bs.length := by
  unfold skipScalar at h
  split at h
  · exact length_of_skipQuoted h
  · split at h
    · have := length_of_skipNumber h
      omega
    · split at h
      · have := length_of_skipNumber h
        grind
      · split at h
        · exact length_of_expect h
        · cases h

/-- A list or an object that is being passed over. -/
inductive Enclosing
  | list
  | object
  deriving DecidableEq, Repr

mutual

/-- Passes over a value inside the given lists and objects, the innermost first, and over what is
left of these. -/
def skipFrom (inside : List Enclosing) (bs : Bytes) : Option Bytes :=
  match h : skipBlanks bs with
  | [] => none
  | b :: rest =>
    have := length_of_skipBlanks h
    if b = 91 then
      match h' : skipBlanks rest with
      | [] => none
      | c :: more =>
        have := length_of_skipBlanks h'
        if c = 93 then skipBehind inside more else skipFrom (.list :: inside) (c :: more)
    else if b = 123 then
      match h' : skipBlanks rest with
      | [] => none
      | c :: more =>
        have := length_of_skipBlanks h'
        if c = 125 then skipBehind inside more else skipName inside (c :: more)
    else
      match h' : skipScalar b rest with
      | some more =>
        have := length_of_skipScalar h'
        skipBehind inside more
      | none => none
termination_by bs.length

/-- Passes over the name of a member and goes on with its value. -/
def skipName (inside : List Enclosing) (bs : Bytes) : Option Bytes :=
  match h : skipBlanks bs with
  | [] => none
  | b :: quoted =>
    have := length_of_skipBlanks h
    if b = 34 then
      match h' : skipQuoted quoted with
      | some rest =>
        have := length_of_skipQuoted h'
        match h'' : skipBlanks rest with
        | [] => none
        | c :: value =>
          have := length_of_skipBlanks h''
          if c = 58 then skipFrom (.object :: inside) value else none
      | none => none
    else none
termination_by bs.length

/-- Goes on behind a value inside the given lists and objects. -/
def skipBehind (inside : List Enclosing) (bs : Bytes) : Option Bytes :=
  match inside with
  | [] => some bs
  | kind :: outside =>
    match h : skipBlanks bs with
    | [] => none
    | b :: rest =>
      have := length_of_skipBlanks h
      match kind with
      | .list =>
        if b = 44 then skipFrom (.list :: outside) rest
        else if b = 93 then skipBehind outside rest
        else none
      | .object =>
        if b = 44 then skipName outside rest
        else if b = 125 then skipBehind outside rest
        else none
termination_by bs.length

end

/-- Passes over a value. -/
def skipValue (bs : Bytes) : Option Bytes := skipFrom [] bs

end Json

end RingStore
