import RingStore.Text

/-!
# Faults

Everything that can go wrong, told apart by its cause: a refused request, a peer that cannot be
reached, a failed file or stream, undecodable bytes, settings that cannot be met. `Fault.message`
is the wording that reaches a client.
-/

namespace RingStore

/-- Why a call on the disk failed. -/
inductive DiskFault
  /-- Nothing is there. -/
  | notFound
  /-- Something is there already. -/
  | alreadyExists
  /-- A file stands where a directory is needed. -/
  | notADirectory
  /-- A directory stands where a file is needed. -/
  | isADirectory
  /-- A name or a path has too many bytes. -/
  | nameTooLong
  /-- The device failed. -/
  | device
  /-- Any other reason, in the system's words. -/
  | other (text : String)
  deriving DecidableEq, Repr

/-- The system's wording of a failed call. -/
def DiskFault.message : DiskFault → String
  | .notFound => "No such file or directory (os error 2)"
  | .alreadyExists => "File exists (os error 17)"
  | .notADirectory => "Not a directory (os error 20)"
  | .isADirectory => "Is a directory (os error 21)"
  | .nameTooLong => "File name too long (os error 36)"
  | .device => "Input/output error (os error 5)"
  | .other text => text

/-- Why bytes are not the encoding of a value. -/
inductive CodecFault
  /-- The bytes end inside a number or a list of bytes. -/
  | endOfInput
  /-- A text is announced as longer than the bytes that are left. -/
  | textTooShort
  /-- The number of an alternative is out of range. -/
  | alternative (found count : Nat)
  /-- A text is not UTF-8. -/
  | notUtf8 (fault : Text.Malformed)
  /-- Any other reason. -/
  | other (text : String)
  deriving DecidableEq, Repr

/-- The wording of a decoding fault. -/
def CodecFault.message : CodecFault → String
  | .endOfInput => "io error: unexpected end of file"
  | .textTooShort => "io error: "
  | .alternative found count =>
    s!"invalid value: integer `{found}`, expected variant index 0 <= i < {count}"
  | .notUtf8 fault => "string is not valid utf8: " ++ fault.message
  | .other text => text

/-- Milliseconds in the shortest unit that keeps them readable: whole or decimal seconds from one
second on, milliseconds below, nanoseconds for none. -/
def durationText (ms : Nat) : String :=
  if ms = 0 then "0ns"
  else if ms < 1000 then s!"{ms}ms"
  else
    let digits := (toString (1000 + ms % 1000)).toList.drop 1
    let decimals := (digits.reverse.dropWhile (· == '0')).reverse
    if decimals.isEmpty then s!"{ms / 1000}s"
    else s!"{ms / 1000}." ++ String.ofList decimals ++ "s"

/-- Why a file or a stream failed. -/
inductive IoFault
  /-- A call on the disk failed. -/
  | disk (fault : DiskFault)
  /-- The stream ended inside a frame. -/
  | earlyEnd
  /-- A frame announces more bytes than are accepted. -/
  | frameOverLimit (size : Nat)
  /-- A message does not fit in a frame. -/
  | frameTooLarge
  /-- The peer did not answer in time. -/
  | noResponse (request : String) (ms : Nat)
  /-- Any other reason, in the system's words. -/
  | other (text : String)
  deriving DecidableEq, Repr

/-- The wording of a failed file or stream. -/
def IoFault.message : IoFault → String
  | .disk fault => fault.message
  | .earlyEnd => "early eof"
  | .frameOverLimit size => s!"frame of {size} bytes exceeds limit"
  | .frameTooLarge => "frame too large"
  | .noResponse request ms => s!"no response to {request} within " ++ durationText ms
  | .other text => text

/-- Why something cannot be set up. -/
inductive SetupFault
  /-- A cache needs a set. -/
  | noCacheSet
  /-- A cache set needs two slots. -/
  | cacheSetTooSmall (slots : Nat)
  /-- A store needs a bucket. -/
  | noBucket
  /-- Any other reason. -/
  | other (text : String)
  deriving DecidableEq, Repr

/-- The wording of a setup fault. -/
def SetupFault.message : SetupFault → String
  | .noCacheSet => "cache needs at least one set"
  | .cacheSetTooSmall slots => s!"cache set needs at least 2 elements, got {slots}"
  | .noBucket => "store needs at least one bucket"
  | .other text => text

/-- Why a request or an operation failed. -/
inductive Fault
  /-- The key is not stored. -/
  | noSuchKey
  /-- The key has too many bytes. -/
  | keyTooLong
  /-- The value has too many bytes. -/
  | valueTooLong
  /-- The store's directory is gone. -/
  | storageUnavailable
  /-- The request cannot be served now. -/
  | generic
  /-- The request makes no sense here. -/
  | invalidRequest
  /-- The peer could not be connected to. -/
  | connection (detail : String)
  /-- A file or a stream failed. -/
  | io (fault : IoFault)
  /-- Bytes could not be decoded. -/
  | codec (fault : CodecFault)
  /-- The settings cannot be met. -/
  | setup (fault : SetupFault)
  deriving DecidableEq, Repr

/-- The wording that reaches a client. -/
def Fault.message : Fault → String
  | .noSuchKey => "ERROR: no such key"
  | .keyTooLong => "ERROR: key too long"
  | .valueTooLong => "ERROR: value too long"
  | .storageUnavailable => "ERROR: unable to access storage"
  | .generic => "ERROR: generic error"
  | .invalidRequest => "ERROR: invalid request"
  | .connection detail => "ERROR: connection failure: " ++ detail
  | .io fault => "IO error: " ++ fault.message
  | .codec fault => "Codec error: " ++ fault.message
  | .setup fault => "Initialization error: " ++ fault.message

end RingStore
