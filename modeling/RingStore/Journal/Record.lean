import RingStore.Operation
import RingStore.Wire.Codec

/-!
# Records of the journal

A record tells of a vote, with the operation voted on, or of a decision. Its data are fields, each
ended by a zero byte: the key, then the value. What follows the last zero byte is not a field.
-/

namespace RingStore

namespace Record

/-- What a record tells of. -/
inductive Kind
  /-- A vote on giving a key a value. -/
  | put
  /-- A vote on deleting a key. -/
  | del
  /-- The decision to carry out. -/
  | commit
  /-- The decision to drop. -/
  | abort
  deriving DecidableEq, Repr

end Record

/-- A record of the journal. -/
structure Record where
  /-- What it tells of. -/
  kind : Record.Kind
  /-- The number of bytes of its data. -/
  length : UInt32
  /-- Its fields. -/
  data : Bytes
  deriving DecidableEq, Repr

namespace Record

/-- A field with its end. -/
def field (s : String) : Bytes := Text.bytes s ++ [0]

/-- The record of a kind with the given fields. -/
def create (kind : Kind) (key? value? : Option String) : Record :=
  let data := ([key?, value?].filterMap id).flatMap field
  ⟨kind, UInt32.ofNat data.length, data⟩

/-- The kind of record that tells of a vote on an operation. -/
def Kind.ofOperation : Operation → Kind
  | .put _ _ => .put
  | .del _ => .del

/-- The record of a vote on an operation. -/
def ofVote (op : Operation) : Record := create (.ofOperation op) (some op.key) op.value?

/-- The record of a decision. -/
def ofDecision (commit : Bool) : Record := create (if commit then .commit else .abort) none none

/-- Splits off the fields, the bytes of the field at hand given backwards. -/
def splitFields : Bytes → Bytes → List Bytes
  | _, [] => []
  | current, b :: rest =>
    if b = 0 then current.reverse :: splitFields [] rest else splitFields (b :: current) rest

/-- The fields of a record. -/
def fields (r : Record) : List Bytes := splitFields [] r.data

/-- The first field, if it is a text. -/
def key? (r : Record) : Option String := r.fields[0]?.bind Text.ofBytes?

/-- The second field, if it is a text. -/
def value? (r : Record) : Option String := r.fields[1]?.bind Text.ofBytes?

/-- The operation that a record of a vote tells of. -/
def operation? (r : Record) : Option Operation := do
  let key ← r.key?
  match r.kind with
  | .put => return .put key (← r.value?)
  | .del => return .del key
  | .commit | .abort => none

/-- The number of a kind in encodings. -/
def Kind.number : Kind → Nat
  | .put => 0
  | .del => 1
  | .commit => 2
  | .abort => 3

instance : Wire Record where
  encode r := Wire.alternative r.kind.number ++ Wire.number 4 r.length.toNat ++ Wire.block r.data
  decode := do
    let kind : Kind := match ← Wire.takeAlternative 4 with
      | 0 => .put
      | 1 => .del
      | 2 => .commit
      | 3 => .abort
    let length ← Wire.takeNumber 4
    return ⟨kind, UInt32.ofNat length, ← Wire.takeBlock⟩

end Record

end RingStore
