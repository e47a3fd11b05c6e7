/-!
# Content types

A content type names a kind and a subkind, separated by a slash, and may go on with parameters
behind a semicolon, which directly follows the subkind. A body is taken as JSON if its kind is
`application` and its subkind is `json`, before or behind its last plus sign; capital and small
letters are the same.
-/

namespace RingStore

namespace Gateway

/-- A character of a name. -/
def isToken (c : Char) : Bool := c.isAlphanum || "!#$%&'*+-.^_`|~".toList.contains c

/-- A character inside the quotes of a parameter. -/
def isQuotable (c : Char) : Bool := c != '"' && 32 ≤ c.toNat && c.toNat < 127

mutual

/-- The rest of a content type is a row of parameters; a blank may stand in front of one. -/
def parametersFrom : Nat → List Char → Bool
  | _, [] => true
  | 0, _ => false
  | steps + 1, ' ' :: rest => parametersFrom steps rest
  | steps + 1, cs =>
    match cs.dropWhile isToken with
    | '=' :: '"' :: rest => !(cs.takeWhile isToken).isEmpty && quotedFrom steps rest
    | '=' :: rest => !(cs.takeWhile isToken).isEmpty && plainFrom steps rest
    | _ => false

/-- Behind the equals sign of a parameter without quotes. -/
def plainFrom : Nat → List Char → Bool
  | 0, _ => false
  | steps + 1, cs =>
    match cs.dropWhile isToken with
    | [] => true
    | ';' :: rest => !(cs.takeWhile isToken).isEmpty && parametersFrom steps rest
    | _ => false

/-- Behind the opening quote of a parameter. Its first character may be a quote itself. -/
def quotedFrom : Nat → List Char → Bool
  | 0, _ | _, [] => false
  | steps + 1, c :: cs =>
    match (if c = '"' then cs else c :: cs).dropWhile isQuotable with
    | '"' :: rest =>
      match rest.dropWhile (· == ' ') with
      | [] => true
      | ';' :: rest => parametersFrom steps rest
      | _ => false
    | _ => false

end

/-- The parts of a subkind before and behind its last plus sign, if that is not in front, or else
all of it. -/
def subkindParts (subkind : List Char) : List (List Char) :=
  let tail := (subkind.reverse.takeWhile (· != '+')).reverse
  let size := subkind.length - tail.length - 1
  if 0 < size then [subkind.take size, tail] else [subkind]

/-- A body of this content type is taken as JSON. -/
def isJsonType (contentType : String) : Bool :=
  let cs := contentType.toList
  match cs.dropWhile isToken with
  | '/' :: rest =>
    let subkind := rest.takeWhile isToken
    let behind := rest.dropWhile isToken
    let wellFormed := !subkind.isEmpty &&
      match behind with
      | [] => true
      | c :: parameters => c == ';' && parametersFrom (parameters.length + 1) parameters
    wellFormed && (cs.takeWhile isToken).map Char.toLower == "application".toList
      && (subkindParts subkind).any fun part => part.map Char.toLower == "json".toList
  | _ => false

end Gateway

end RingStore
