/-!
# Request targets

The target of a request is a path, or a whole address in which the path follows the scheme and the
authority, or an authority alone, or a star. A question mark begins a query and a number sign a
fragment; neither belongs to the path. `Target.path?` finds the path, and is `none` exactly if the
target is out of order.
-/

namespace RingStore

namespace Gateway

namespace Target

/-- The most bytes that a target may have. -/
def sizeLimit : Nat := 65534

/-- The most characters that a scheme may have. -/
def schemeLimit : Nat := 64

/-- The most colons that the host and the port of an authority may have. -/
def colonLimit : Nat := 8

/-- A character that may stand in a path. -/
def isPathChar (c : Char) : Bool := 32 < c.toNat && !"<>`".toList.contains c

/-- A character that may stand in a query. -/
def isQueryChar (c : Char) : Bool := 32 < c.toNat && !"<>\"".toList.contains c

/-- A character that may stand in a scheme. -/
def isSchemeChar (c : Char) : Bool := c.isAlphanum || "+-.~".toList.contains c

/-- A character that may stand in an authority and has no meaning of its own there. -/
def isAuthorityChar (c : Char) : Bool := c.isAlphanum || "!$&'()*+,-.;=_~".toList.contains c

/-- What was met in an authority, from its start or from the last user sign on. -/
structure Met where
  colons : Nat
  /-- A bracket was opened, anywhere. -/
  opened : Bool
  /-- A bracket was closed, anywhere. -/
  closed : Bool
  /-- A percent sign. -/
  percent : Bool

/-- Meets one more character of an authority. Percent signs may stand before a user sign and between
brackets only, which is why both forget what came before them. -/
def Met.next (met : Met) (c : Char) : Option Met :=
  match c with
  | ':' => if met.colons = colonLimit then none else some { met with colons := met.colons + 1 }
  | '[' => if met.percent || met.opened then none else some { met with opened := true }
  | ']' =>
    if !met.opened || met.closed then none
    else some { met with closed := true, colons := 0, percent := false }
  | '@' => some { met with colons := 0, percent := false }
  | '%' => some { met with percent := true }
  | c => if isAuthorityChar c then some met else none

/-- The text is an authority: brackets come as one pair, and behind the last user sign stands a host
with at most one port. -/
def isAuthority (cs : List Char) : Bool :=
  match cs.foldlM Met.next ⟨0, false, false, false⟩ with
  | some met =>
    cs ≠ [] && cs.getLast? != some '@' && met.opened == met.closed && met.colons ≤ 1 && !met.percent
  | none => false

/-- A character that ends a path. -/
def endsPath (c : Char) : Bool := c == '?' || c == '#'

/-- The path at the front of what may go on with a query and a fragment. -/
def leadingPath? (cs : List Char) : Option String :=
  let path := cs.takeWhile (!endsPath ·)
  let query := match cs.dropWhile (!endsPath ·) with
    | '?' :: rest => rest.takeWhile (· != '#')
    | _ => []
  if path.all isPathChar && query.all isQueryChar then some (String.ofList path) else none

/-- What follows the scheme, if there is one, and the length of the scheme. -/
def scheme? (cs : List Char) : Option (Nat × List Char) :=
  match cs.dropWhile isSchemeChar with
  | ':' :: '/' :: '/' :: rest => some ((cs.takeWhile isSchemeChar).length, rest)
  | _ => none

/-- The path of a target. It is empty if the target is an authority alone, and a lone slash if an
address ends with its authority. -/
def path? (target : String) : Option String :=
  if sizeLimit < target.utf8ByteSize then none
  else
    match target.toList, scheme? target.toList with
    | ['*'], _ => some "*"
    | '/' :: rest, _ => leadingPath? ('/' :: rest)
    | _, some (length, rest) =>
      let inAuthority (c : Char) : Bool := c != '/' && !endsPath c
      if length ≤ schemeLimit && isAuthority (rest.takeWhile inAuthority) then
        (leadingPath? (rest.dropWhile inAuthority)).map fun path =>
          if path.isEmpty then "/" else path
      else none
    | cs, none => if isAuthority cs then some "" else none

end Target

end Gateway

end RingStore
