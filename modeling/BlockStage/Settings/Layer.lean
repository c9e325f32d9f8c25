import BlockStage.Text.Case
import BlockStage.Text.Digit
import BlockStage.Toml.Basic
import BlockStage.Word

/-! # Layers of settings

Settings come in layers, each a list of values under names in lower case. A name spells a path into
one tree of values. A value of a later layer takes the place of an earlier one; tables are merged.
-/
namespace BlockStage.Layer

open BlockStage.Toml (Value)

abbrev Tree := List (String × Value)

def blank : Value := .table []

def members : Value → Tree
  | .table ms => ms
  | _ => []

def items : Value → List Value
  | .array vs => vs
  | _ => []

def member (tree : Tree) (name : String) : Value := (tree.lookup name).getD blank

def assign (name : String) (v : Value) : Tree → Tree
  | [] => [(name, v)]
  | (n, w) :: rest => if n = name then (n, v) :: rest else (n, w) :: assign name v rest

mutual

/-- Merges a value into the one that is there. A table without members leaves it as it is. -/
def merge (old : Value) : Value → Value
  | .table [] => old
  | .table (m :: ms) => .table (mergeAll (members old) (m :: ms))
  | v => v

def mergeAll (tree : Tree) : List (String × Value) → Tree
  | [] => tree
  | (name, v) :: rest =>
    let name := Text.lowerCase name
    mergeAll (assign name (merge (member tree name) v) tree) rest

end

/-! ## Paths -/

inductive Step where
  | member (name : String)
  /-- An item of an array; a negative number counts from the end. -/
  | item (index : Int)
  deriving Repr, DecidableEq

def position (index : Int) (count : Nat) : Nat :=
  if index < 0 then (count + index).toNat else index.toNat

/-- Puts a value at the end of a path; what stands in the way becomes a table or an array. A member
is merged with the value that is there, an item gives way to it. -/
def place (v : Value) : List Step → (old : Value) → Value
  | [], _ => v
  | [.member name], old =>
    .table (assign name (merge (member (members old) name) v) (members old))
  | .member name :: path, old =>
    .table (assign name (place v path (member (members old) name)) (members old))
  | .item index :: path, old =>
    let n := position index (items old).length
    let vs := items old ++ List.replicate (n + 1 - (items old).length) blank
    .array (vs.set n (place v path (vs[n]?.getD blank)))

/-! ## Names -/

def isPathChar (c : Char) : Bool := c.isAlphanum || c = '_' || c = '-' || c = ' '

def skipSpace (cs : List Char) : List Char := cs.dropWhile fun c => c = ' ' || c = '\t'

def index? (cs : List Char) : Option (Int × List Char) :=
  let (negative, cs) := match skipSpace cs with
    | '-' :: r => (true, r)
    | r => (false, r)
  let (ds, r) := cs.span Text.isDigit
  let n : Int := if negative then -(Text.number ds : Int) else Text.number ds
  match skipSpace r with
  | ']' :: r => if !ds.isEmpty && Word.fitsSigned64 n then some (n, r) else none
  | _ => none

def steps? : (fuel : Nat) → List Char → Option (List Step)
  | _, [] => some []
  | fuel + 1, '.' :: r =>
    match r.span isPathChar with
    | ([], _) => none
    | (name, r) => (steps? fuel r).map (.member (.ofList name) :: ·)
  | fuel + 1, '[' :: r => do
    let (n, r) ← index? r
    (steps? fuel r).map (.item n :: ·)
  | _, _ => none

def path? (cs : List Char) : Option (List Step) :=
  steps? (cs.length + 1) ('.' :: cs)

/-- The path that a name spells; one that spells none is the name of a member. -/
def path (name : String) : List Step :=
  let name := Text.lowerCase name
  (path? name.toList).getD [.member name]

def overlay (tree layer : Tree) : Tree :=
  layer.foldl (fun tree (name, v) => members (place v (path name) (.table tree))) tree

end BlockStage.Layer
