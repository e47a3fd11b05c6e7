/-!
# Socket addresses

An address of the fourth version of the protocol is written as four numbers with dots between them,
one of the sixth as up to eight groups of hexadecimal digits with colons between them, in brackets;
a row of groups of zeros may be left out. The port follows behind a colon. `SocketAddress.text`
writes an address in its one normal form.
-/

namespace RingStore

/-- An address of a host. -/
inductive HostAddress
  /-- Four bytes. -/
  | v4 (bytes : List Nat)
  /-- Eight groups of two bytes, and the number of a zone. -/
  | v6 (groups : List Nat) (zone : Nat)
  deriving DecidableEq, Repr

/-- An address of a host with a port. -/
structure SocketAddress where
  host : HostAddress
  port : Nat
  deriving DecidableEq, Repr

namespace SocketAddress

/-- The value of a digit in a base up to sixteen. -/
def digit? (base : Nat) (c : Char) : Option Nat :=
  let value? :=
    if c.isDigit then some (c.toNat - 48)
    else if 'a' ≤ c ∧ c ≤ 'f' then some (c.toNat - 87)
    else if 'A' ≤ c ∧ c ≤ 'F' then some (c.toNat - 55)
    else none
  value?.filter (· < base)

/-- A number of one to `width` digits up to `greatest`; leading zeros only if `padded`. -/
def number (base width greatest : Nat) (padded : Bool) (cs : List Char) : Option Nat := do
  let digits ← cs.mapM (digit? base)
  let value := digits.foldl (fun acc d => acc * base + d) 0
  if digits.isEmpty ∨ width < digits.length ∨ greatest < value then none
  else if ¬padded ∧ 1 < digits.length ∧ digits.head? = some 0 then none
  else return value

/-- The parts of a text between the separators. -/
def splitAll (separator : Char) (cs : List Char) : List (List Char) :=
  cs.foldr (fun c parts => if c = separator then [] :: parts else
    match parts with
    | part :: rest => (c :: part) :: rest
    | [] => [[c]]) [[]]

/-- A port; it may have leading zeros. -/
def portOf (cs : List Char) : Option Nat := number 10 cs.length 65535 true cs

/-- Four bytes with dots between them. -/
def v4Of (cs : List Char) : Option (List Nat) := do
  let parts := splitAll '.' cs
  if parts.length = 4 then parts.mapM (number 10 3 255 false) else none

/-- Groups with colons between them; four bytes may stand for the last two. -/
def groupsOf (cs : List Char) : Option (List Nat) := do
  if cs.isEmpty then return []
  let parts := splitAll ':' cs
  let last := parts.getLastD []
  match v4Of last with
  | some [a, b, c, d] =>
    return (← parts.dropLast.mapM (number 16 4 65535 true)) ++ [a * 256 + b, c * 256 + d]
  | _ => parts.mapM (number 16 4 65535 true)

/-- The two sides of the first pair of colons, if there is one. -/
def splitGap : List Char → List Char → Option (List Char × List Char)
  | before, ':' :: ':' :: rest => some (before.reverse, rest)
  | before, c :: rest => splitGap (c :: before) rest
  | _, [] => none

/-- Eight groups, of which a row of zeros may be left out between two colons. Groups on both sides
of the gap leave room for one at least. -/
def v6Of (cs : List Char) : Option (List Nat) := do
  match splitGap [] cs with
  | none =>
    let groups ← groupsOf cs
    if groups.length = 8 then return groups else none
  | some (before, behind) =>
    let front ← groupsOf before
    let back ← groupsOf behind
    if before.contains '.' then none
    else if front.length + back.length < 8 then
      return front ++ List.replicate (8 - front.length - back.length) 0 ++ back
    else none

/-- The address of the fourth version that the groups stand for, if they do. -/
def mapped? (groups : List Nat) : Option (List Nat) :=
  match groups with
  | [0, 0, 0, 0, 0, 65535, a, b] => some [a / 256, a % 256, b / 256, b % 256]
  | _ => none

/-- Reads an address with its port. -/
def parse? (s : String) : Option SocketAddress := do
  let cs := s.toList
  match cs with
  | '[' :: rest =>
    let inside := rest.takeWhile (· ≠ ']')
    match rest.dropWhile (· ≠ ']') with
    | ']' :: ':' :: port =>
      let groups ← v6Of (inside.takeWhile (· ≠ '%'))
      let zone ← match inside.dropWhile (· ≠ '%') with
        | [] => some 0
        | _ :: zone => number 10 zone.length 4294967295 true zone
      return ⟨.v6 groups zone, ← portOf port⟩
    | _ => none
  | _ =>
    match cs.dropWhile (· ≠ ':') with
    | _ :: port => return ⟨.v4 (← v4Of (cs.takeWhile (· ≠ ':'))), ← portOf port⟩
    | [] => none

/-- Numbers with dots between them. -/
def dotted (bytes : List Nat) : String := ".".intercalate (bytes.map toString)

/-- Groups in hexadecimal digits, with colons between them. -/
def colons (groups : List Nat) : String :=
  ":".intercalate (groups.map fun g => String.ofList (Nat.toDigits 16 g))

/-- The length of the row of zeros at the front. -/
def zeroRow (groups : List Nat) : Nat := (groups.takeWhile (· = 0)).length

/-- The longest row of zeros, the first of several: where it begins, and its length. -/
def longestGap (groups : List Nat) : Nat × Nat :=
  (List.range groups.length).foldl (fun best i =>
    let n := zeroRow (groups.drop i)
    if best.2 < n then (i, n) else best) (0, 0)

/-- The normal form of the groups of an address. -/
def v6Text (groups : List Nat) : String :=
  match mapped? groups with
  | some bytes => "::ffff:" ++ dotted bytes
  | none =>
    let (start, n) := longestGap groups
    if 1 < n then colons (groups.take start) ++ "::" ++ colons (groups.drop (start + n))
    else colons groups

end SocketAddress

namespace HostAddress

/-- The normal form of an address of a host. -/
def text : HostAddress → String
  | v4 bytes => SocketAddress.dotted bytes
  | v6 groups zone =>
    SocketAddress.v6Text groups ++ if zone = 0 then "" else "%" ++ toString zone

/-- Reads an address of a host; one of the sixth version may stand in brackets. -/
def parse? (s : String) : Option HostAddress :=
  ((SocketAddress.parse? (s ++ ":0")).or (SocketAddress.parse? ("[" ++ s ++ "]:0"))).map (·.host)

/-- The address is one that every computer has: that of the computer itself, or of all its hosts. -/
def isOwn : HostAddress → Bool
  | v4 bytes => bytes.head? = some 127 || bytes.all (· = 0)
  | v6 groups _ => groups.dropLast.all (· = 0) && groups.all (· ≤ 1)

end HostAddress

/-- The normal form of an address with its port. -/
def SocketAddress.text (a : SocketAddress) : String :=
  match a.host with
  | .v4 _ => a.host.text ++ ":" ++ toString a.port
  | .v6 _ _ => "[" ++ a.host.text ++ "]:" ++ toString a.port

end RingStore
