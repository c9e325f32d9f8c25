import BlockStage.Dict
import BlockStage.Host.Basic
import BlockStage.Host.Path

/-! # A host in memory

A `World` is all that a host is asked for, as a value: a tree of files with a working directory, an
environment, a date that stands still and a clock that moves only while somebody waits.
-/
namespace BlockStage

inductive Node where
  | file (text : String)
  | directory (entries : List (String × Node))

namespace Node

def find? : Node → List String → Option Node
  | n, [] => some n
  | .directory es, name :: rest =>
    match Entries.find? name es with
    | some n => n.find? rest
    | none => none
  | .file _, _ :: _ => none

def entries : Option Node → Entries Node
  | some (.directory es) => es
  | _ => []

/-- Puts a node where names lead. What is not a directory on the way becomes one. -/
def put (n : Node) : List String → (old : Option Node) → Node
  | [], _ => n
  | name :: rest, old =>
    let es := entries old
    .directory (Entries.insert name (n.put rest (Entries.find? name es)) es)

end Node

structure World where
  root : Node := .directory [("work", .directory [])]
  here : List String := ["work"]
  environment : Environment := {}
  date : Timestamp := .ofUnix 0 0
  clock : Nat := 0

namespace World

def nameLimit : Nat := 255

def pathLimit : Nat := 4095

def node? (w : World) (place : List String) : Option Node := w.root.find? place

def put (w : World) (place : List String) (n : Node) : World :=
  { w with root := n.put place (some w.root) }

def start (w : World) (path : String) : List String :=
  if path.startsWith "/" then [] else w.here

def pathFault? (path : String) : Option FileFault :=
  if path.contains '\x00' then some .badName
  else if pathLimit < path.utf8ByteSize then some .nameTooLong
  else none

/-- Follows names from a place. All places on the way have to be directories. -/
def follow (w : World) (place : List String) : List String → Except FileFault (List String)
  | [] => .ok place
  | name :: rest =>
    match w.node? place with
    | none => .error .missing
    | some (.file _) => .error .notDirectory
    | some (.directory _) =>
      if Path.isHere name then w.follow place rest
      else if name = ".." then w.follow place.dropLast rest
      else if nameLimit < name.utf8ByteSize then .error .nameTooLong
      else w.follow (place ++ [name]) rest

def resolve (w : World) (path : String) : Except FileFault (List String) :=
  if path = "" then .error .missing
  else
    match pathFault? path with
    | some fault => .error fault
    | none => w.follow (w.start path) (Path.names path)

def kindAt (w : World) (path : String) : Option PathKind :=
  match w.resolve path with
  | .error _ => none
  | .ok place =>
    match w.node? place with
    | some (.file _) => some .file
    | some (.directory _) => some .directory
    | none => none

def textAt (w : World) (path : String) : Except FileFault String := do
  match w.node? (← w.resolve path) with
  | some (.file text) => .ok text
  | some (.directory _) => .error .isDirectory
  | none => .error .missing

/-- Writes a file. A path that ends in a slash can only lead to a directory: its last name counts
for nothing but the directory that it is in. -/
def write (w : World) (path text : String) : Except FileFault World := do
  if path.endsWith "/" then
    let names := ((Path.names path).reverse.dropWhile (· = "")).reverse
    match pathFault? path, w.follow (w.start path) (names.dropLast ++ ["."]) with
    | some fault, _ => .error fault
    | none, .error fault => .error fault
    | none, .ok _ => .error .isDirectory
  else
    let place ← w.resolve path
    match w.node? place with
    | some (.directory _) => .error .isDirectory
    | _ => .ok (w.put place (.file text))

/-- Makes the directories that are missing along names. Those before a name that fails stay. A file
in the way has the name of a directory to make if it is the last name or something was missing
before it (`made`). -/
def makeAlong (w : World) (made : Bool) (place : List String) :
    List String → World × Except FileFault Unit
  | [] => (w, .ok ())
  | name :: rest =>
    if Path.isHere name then w.makeAlong made place rest
    else if name = ".." then w.makeAlong made place.dropLast rest
    else if nameLimit < name.utf8ByteSize then (w, .error .nameTooLong)
    else
      match w.node? (place ++ [name]) with
      | some (.directory _) => w.makeAlong made (place ++ [name]) rest
      | some (.file _) => (w, .error (if made || rest.isEmpty then .exists else .notDirectory))
      | none => (w.put (place ++ [name]) (.directory [])).makeAlong true (place ++ [name]) rest

def makeDirectories (w : World) (path : String) : World × Except FileFault Unit :=
  match pathFault? path with
  | some fault => (w, .error fault)
  | none => w.makeAlong false (w.start path) (Path.significant path)

end World

abbrev Simulated := StateM World

/-- Applies a change that may fail and then changes nothing. -/
def Simulated.attempt (f : World → Except FileFault World) : Simulated (Except FileFault Unit) :=
  fun w =>
    match f w with
    | .ok w => (.ok (), w)
    | .error e => (.error e, w)

def Simulated.makeDirectories (path : String) : Simulated (Except FileFault Unit) := fun w =>
  let (w, result) := w.makeDirectories path
  (result, w)

instance : Host Simulated where
  kind? path := do return (← get).kindAt path
  readText path := do return (← get).textAt path
  writeText path text := .attempt fun w => w.write path text
  makeDirs := Simulated.makeDirectories
  levelsUp := do return (← get).here.length
  environment := do return (← get).environment
  date := do return (← get).date
  clock := do return (← get).clock
  sleepUntil t := modify fun w => { w with clock := max w.clock t }

end BlockStage
