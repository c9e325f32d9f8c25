/-! # TOML values

A `Value` is what a document says. While a document is being read its tables are `Item`s, which
also know how a table came about: that decides which later lines may add to it.
-/
namespace BlockStage.Toml

inductive Value where
  | string (s : String)
  | integer (n : Int)
  | float (x : Float)
  | boolean (b : Bool)
  | datetime (text : String)
  | array (items : List Value)
  | table (members : List (String × Value))

instance : Inhabited Value := ⟨.table []⟩

inductive Origin where
  | header
  | implied
  | dotted
  deriving Repr, DecidableEq

inductive Item where
  /-- A value, to which nothing can be added. -/
  | leaf (v : Value)
  | table (origin : Origin) (members : List (String × Item))
  /-- Tables under one name; further lines belong to the last one. -/
  | rows (earlier : List (List (String × Item))) (last : List (String × Item))

abbrev Members := List (String × Item)

mutual

def Item.toValue : Item → Value
  | .leaf v => v
  | .table _ members => .table (toMembers members)
  | .rows earlier last => .array (toRows earlier ++ [.table (toMembers last)])

def toMembers : Members → List (String × Value)
  | [] => []
  | (key, item) :: rest => (key, item.toValue) :: toMembers rest

def toRows : List Members → List Value
  | [] => []
  | members :: rest => .table (toMembers members) :: toRows rest

end

namespace Members

/-- Puts an item under a key, in its old place if there is one. -/
def set (key : String) (item : Item) : Members → Members
  | [] => [(key, item)]
  | (k, i) :: rest => if k = key then (k, item) :: rest else (k, i) :: set key item rest

/-- Changes the table at the end of a path. Missing tables on the way come about as `made`; dotted
keys do not reach into tables that have a header, and nothing reaches into a value. -/
def within (made : Origin) (f : Origin → Members → Option Members) :
    (path : List String) → Origin → Members → Option Members
  | [], origin, members => f origin members
  | key :: path, _, members =>
    match members.lookup key with
    | none => (within made f path made []).map fun inner => set key (.table made inner) members
    | some (.table origin inner) =>
      if made = .dotted ∧ origin = .header then none
      else
        (within made f path origin inner).map fun inner => set key (.table origin inner) members
    | some (.rows earlier last) =>
      (within made f path .header last).map fun last => set key (.rows earlier last) members
    | some (.leaf _) => none

/-- Adds a value under a dotted key. The table that gets it has to be one of dotted keys, too,
unless the key is a single name. -/
def insert (path : List String) (key : String) (v : Value) (members : Members) : Option Members :=
  within .dotted (fun origin members =>
    if path.isEmpty ∨ origin = .dotted then
      match members.lookup key with
      | some _ => none
      | none => some (set key (.leaf v) members)
    else none) path .header members

/-- Adds a table with a header of its own; one that is only implied so far becomes it, as the last
member. -/
def openTable (path : List String) (key : String) (members : Members) : Option Members :=
  within .implied (fun _ members =>
    match members.lookup key with
    | none => some (set key (.table .header []) members)
    | some (.table .implied inner) =>
      some (members.filter (·.1 != key) ++ [(key, .table .header inner)])
    | some _ => none) path .header members

def openRow (path : List String) (key : String) (members : Members) : Option Members :=
  within .implied (fun _ members =>
    match members.lookup key with
    | none => some (set key (.rows [] []) members)
    | some (.rows earlier last) => some (set key (.rows (earlier ++ [last]) []) members)
    | some _ => none) path .header members

end Members

end BlockStage.Toml
