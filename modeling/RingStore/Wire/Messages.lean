import RingStore.Message
import RingStore.Wire.Codec

/-!
# Encodings of requests and responses

The alternatives are numbered in the order of their declaration, and the fields of one follow its
number. A port takes two bytes.
-/

namespace RingStore

open Wire

instance : Wire Request where
  encode
    | .get key => alternative 0 ++ text key
    | .put key value => alternative 1 ++ text key ++ text value
    | .del key => alternative 2 ++ text key
    | .register host port => alternative 3 ++ text host ++ number 2 port.toNat
    | .info => alternative 4
    | .commit => alternative 5
    | .abort => alternative 6
  decode := do
    match ← takeAlternative 7 with
    | 0 => return .get (← takeText)
    | 1 =>
      let key ← takeText
      return .put key (← takeText)
    | 2 => return .del (← takeText)
    | 3 =>
      let host ← takeText
      return .register host (UInt16.ofNat (← takeNumber 2))
    | 4 => return .info
    | 5 => return .commit
    | 6 => return .abort

instance : Wire Response where
  encode
    | .report message => alternative 0 ++ text message
    | .value key value => alternative 1 ++ text key ++ text value
    | .voteCommit => alternative 2
    | .voteAbort message => alternative 3 ++ text message
    | .ack => alternative 4
  decode := do
    match ← takeAlternative 5 with
    | 0 => return .report (← takeText)
    | 1 =>
      let key ← takeText
      return .value key (← takeText)
    | 2 => return .voteCommit
    | 3 => return .voteAbort (← takeText)
    | 4 => return .ack

end RingStore
