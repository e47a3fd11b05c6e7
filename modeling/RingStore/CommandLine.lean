import RingStore.Numeral
import RingStore.Settings
import RingStore.SocketAddress

/-!
# The command line

The program runs as a coordinator (`master`) or as a replica (`slave`). Options follow the role;
each has a value, behind an equals sign or as the next word, except for those that only switch
something on. A word that begins with a dash is never taken for the value of the option before it.
No option may be given twice, and nothing else may stand on the line. Words are read from the left,
and the first that asks for help or is out of place settles the matter.
-/

namespace RingStore

namespace CommandLine

/-- Why no command comes about. -/
inductive Refusal
  /-- Help is asked for. -/
  | help
  /-- The line is out of order. -/
  | usage
  deriving DecidableEq, Repr

/-- What an option takes. -/
inductive ValueKind
  /-- Nothing. -/
  | switch
  /-- Any text. -/
  | text
  /-- A path, which is not empty. -/
  | path
  | port
  /-- A number. -/
  | count
  /-- A socket address. -/
  | address
  deriving DecidableEq, Repr

/-- The options of a role: their names, and what they take. -/
abbrev Options := List (String × ValueKind)

/-- The options that a line gives, with their values. -/
abbrev Given := List (String × String)

/-- The options of a coordinator. -/
def coordinatorOptions : Options :=
  [("host", .text), ("port", .port), ("slaves", .count), ("redundancy", .count),
    ("num-sets", .count), ("elem-per-set", .count), ("threads", .count), ("http", .address)]

/-- The options of a replica. -/
def replicaOptions : Options :=
  [("host", .text), ("port", .port), ("master", .text), ("data-dir", .path), ("num-sets", .count),
    ("elem-per-set", .count), ("threads", .count), ("standalone", .switch)]

/-- Reads a number of 64 bits. -/
def count? (s : String) : Option Nat := (Numeral.read 18446744073709551615 s).toOption

/-- Reads a port. Zero may have a minus sign. -/
def port? (s : String) : Option UInt16 :=
  let digits :=
    if s.startsWith "-" ∧ (s.toList.drop 1).all (· == '0') then s.toList.drop 1 else s.toList
  ((Numeral.read 65535 (String.ofList digits)).toOption).map UInt16.ofNat

/-- The text is a value of the kind. -/
def ValueKind.accepts (kind : ValueKind) (s : String) : Bool :=
  match kind with
  | switch => false
  | text => true
  | path => !s.isEmpty
  | port => (port? s).isSome
  | count => (count? s).isSome
  | address => (SocketAddress.parse? s).isSome

/-- The word stands for an option, and not for a value. -/
def isOption (word : String) : Bool := word.startsWith "-" && word ≠ "-"

/-- The word asks for help by a single letter, with or without others behind it. -/
def isShortHelp (word : String) : Bool := word.startsWith "-h"

/-- A word behind two dashes: the name of an option, and what stands behind an equals sign. -/
def splitOption (word : String) : String × Option String :=
  let cs := word.toList.drop 2
  let name := String.ofList (cs.takeWhile (· ≠ '='))
  match cs.dropWhile (· ≠ '=') with
  | _ :: value => (name, some (String.ofList value))
  | [] => (name, none)

/-- Reads the words behind a role, with the options that were given before them. -/
def readOptions (options : Options) : Given → List String → Except Refusal Given
  | given, [] => .ok given
  | given, "--" :: rest => if rest.isEmpty then .ok given else .error .usage
  | given, word :: rest =>
    if word.startsWith "--" then
      match splitOption word with
      | ("help", none) => .error .help
      | (name, value?) =>
        match options.lookup name, value?, rest with
        | none, _, _ => .error .usage
        | some .switch, none, rest => add .switch name "" given rest
        | some .switch, some _, _ => .error .usage
        | some kind, some value, rest => add kind name value given rest
        | some kind, none, value :: rest =>
          if isOption value then .error .usage else add kind name value given rest
        | some _, none, [] => .error .usage
    else if isShortHelp word then .error .help
    else .error .usage
where
  /-- Takes an option with its value in, and reads on. -/
  add (kind : ValueKind) (name value : String) (given : Given) (rest : List String) :
      Except Refusal Given :=
    if (given.lookup name).isSome then .error .usage
    else if kind = .switch ∨ kind.accepts value then
      readOptions options ((name, value) :: given) rest
    else .error .usage

/-- What a coordinator is started with. -/
structure CoordinatorCommand where
  /-- The host to listen on. -/
  host : String
  /-- The port to listen on. -/
  port : UInt16
  /-- The number of replicas. -/
  capacity : Nat
  /-- The number of copies of a key. -/
  redundancy : Nat
  /-- The number of cache sets. -/
  cacheSets : Nat
  /-- The number of slots in a cache set. -/
  cacheSlots : Nat
  /-- The number of connections served at a time. -/
  workers : Nat
  /-- Where to listen for HTTP, if anywhere. -/
  http? : Option SocketAddress
  deriving DecidableEq, Repr

/-- What a replica is started with. -/
structure ReplicaCommand where
  /-- The host to listen on. -/
  host : String
  /-- The port to listen on. -/
  port : UInt16
  /-- The coordinator's host and port, as one text. -/
  coordinator : String
  /-- The directory of the store, if one is named. -/
  dataDir? : Option String
  /-- The number of cache sets. -/
  cacheSets : Nat
  /-- The number of slots in a cache set. -/
  cacheSlots : Nat
  /-- The number of connections served at a time. -/
  workers : Nat
  /-- The replica carries writes out at once instead of voting on them. -/
  alone : Bool
  deriving DecidableEq, Repr

/-- What the program is to do. -/
inductive Command
  /-- Run as a coordinator. -/
  | coordinate (c : CoordinatorCommand)
  /-- Run as a replica. -/
  | replicate (c : ReplicaCommand)
  deriving DecidableEq, Repr

/-- A number that was given, or else the standard one. -/
def Given.count (given : Given) (name : String) (standard : Nat) : Nat :=
  ((given.lookup name).bind count?).getD standard

/-- A text that was given, or else the standard one. -/
def Given.text (given : Given) (name standard : String) : String :=
  (given.lookup name).getD standard

/-- The port that was given. -/
def Given.port? (given : Given) : Option UInt16 := (given.lookup "port").bind CommandLine.port?

/-- The command of a coordinator with the given options. -/
def coordinator (given : Given) : CoordinatorCommand where
  host := Given.text given "host" "127.0.0.1"
  port := (Given.port? given).getD 8888
  capacity := Given.count given "slaves" 2
  redundancy := Given.count given "redundancy" 2
  cacheSets := Given.count given "num-sets" 4
  cacheSlots := Given.count given "elem-per-set" 4
  workers := Given.count given "threads" 8
  http? := (given.lookup "http").bind SocketAddress.parse?

/-- The command of a replica with the given options, of which the port is needed. -/
def replica (given : Given) : Except Refusal ReplicaCommand :=
  match Given.port? given with
  | none => .error .usage
  | some port => .ok {
      host := Given.text given "host" "127.0.0.1"
      port
      coordinator := Given.text given "master" "127.0.0.1:8888"
      dataDir? := given.lookup "data-dir"
      cacheSets := Given.count given "num-sets" 4
      cacheSlots := Given.count given "elem-per-set" 4
      workers := Given.count given "threads" 4
      alone := (given.lookup "standalone").isSome }

/-- The word for running as a coordinator. -/
def coordinatorRole : String := "master"

/-- The word for running as a replica. -/
def replicaRole : String := "slave"

/-- The word that asks for help, for the program or one of its roles. -/
def helpRole : String := "help"

/-- Reads the words behind the program's name. -/
def read : List String → Except Refusal Command
  | [] => .error .usage
  | role :: rest =>
    if role = coordinatorRole then
      return .coordinate (coordinator (← readOptions coordinatorOptions [] rest))
    else if role = replicaRole then
      return .replicate (← replica (← readOptions replicaOptions [] rest))
    else if role = helpRole then
      match rest with
      | [] => .error .help
      | [word] =>
        if [coordinatorRole, replicaRole, helpRole].contains word then .error .help
        else .error .usage
      | _ => .error .usage
    else if role = "--help" ∨ isShortHelp role then .error .help
    else .error .usage

/-- The settings of a coordinator. -/
def CoordinatorCommand.settings (c : CoordinatorCommand) : CoordinatorSettings :=
  ((CoordinatorSettings.ofCapacity c.capacity c.redundancy).withCache
    c.cacheSets c.cacheSlots).withWorkers
    c.workers

/-- The settings of a replica. Its data go into a directory named after the port if none is
named. -/
def ReplicaCommand.settings (c : ReplicaCommand) : ReplicaSettings :=
  ((((ReplicaSettings.ofDataDir (c.dataDir?.getD s!"kvstore-{c.port}")).withAddress c.host
    c.port).withCache c.cacheSets c.cacheSlots).withWorkers c.workers).withVotes !c.alone

/-- Why the program ends: in words, and with the cause in words if there is one. -/
structure Failure where
  /-- What went wrong. -/
  message : String
  /-- What it was caused by. -/
  cause? : Option String
  deriving DecidableEq, Repr

/-- The words with which the program ends. -/
def Failure.text (f : Failure) : String :=
  "Error: " ++ f.message ++ match f.cause? with
    | some cause => "\n\nCaused by:\n    " ++ cause
    | none => ""

/-- The end of a program because of a fault; files, streams and encodings are causes of their
own. -/
def Failure.ofFault (f : Fault) : Failure :=
  ⟨f.message, match f with
    | .io cause => some cause.message
    | .codec cause => some cause.message
    | _ => none⟩

/-- The coordinator's host and port from one text; the port stands behind the last colon. -/
def coordinatorAddress (s : String) : Except Failure (String × UInt16) :=
  let backwards := s.toList.reverse
  match backwards.dropWhile (· ≠ ':') with
  | [] => .error ⟨"--master must be host:port", none⟩
  | _ :: host =>
    match Numeral.read 65535 (String.ofList (backwards.takeWhile (· ≠ ':')).reverse) with
    | .ok port => .ok (String.ofList host.reverse, UInt16.ofNat port)
    | .error problem => .error ⟨"invalid master port", some problem.message⟩

end CommandLine

end RingStore
