import BlockStage.Toml.Scalar

/-! # Reading TOML

Values with their containers, and documents line by line.
-/
namespace BlockStage.Toml

mutual

/-- Any value. `levels` is the number of containers that may be opened inside one another. -/
def value? : (fuel levels : Nat) → List Char → Option (Value × List Char)
  | 0, _, _ => none
  | _, 0, '[' :: _ => none
  | fuel + 1, levels + 1, '[' :: r =>
    (items? fuel levels r).map fun (vs, r) => (.array vs, r)
  | _, 0, '\x7b' :: _ => none
  | fuel + 1, levels + 1, '\x7b' :: r =>
    match skipSpace r with
    | '\x7d' :: r => some (.table [], r)
    | r => (pairs? fuel levels [] r).map fun (ms, r) => (.table (toMembers ms), r)
  | _, _, cs => scalarValue? cs

def items? : (fuel levels : Nat) → List Char → Option (List Value × List Char)
  | 0, _, _ => none
  | fuel + 1, levels, cs =>
    match skipFiller false cs with
    | ']' :: r => some ([], r)
    | cs =>
      match value? fuel levels cs with
      | none => none
      | some (v, r) =>
        match skipFiller false r with
        | ',' :: r => (items? fuel levels r).map fun (vs, r) => (v :: vs, r)
        | ']' :: r => some ([v], r)
        | _ => none

def pairs? : (fuel levels : Nat) → Members → List Char → Option (Members × List Char)
  | 0, _, _, _ => none
  | fuel + 1, levels, members, cs =>
    match key? cs with
    | some ((path, name), '=' :: r) =>
      match value? fuel levels (skipSpace r) with
      | none => none
      | some (v, r) =>
        match members.insert path name v with
        | none => none
        | some members =>
          match skipSpace r with
          | ',' :: r => pairs? fuel levels members r
          | '\x7d' :: r => some (members, r)
          | _ => none
    | _ => none

end

structure Draft where
  members : Members := []
  header : List String := []

def header? (d : Draft) (cs : List Char) : Option (Draft × List Char) := do
  match cs with
  | '[' :: '[' :: r =>
    match ← key? r with
    | ((path, name), ']' :: ']' :: r) =>
      return (⟨← d.members.openRow path name, path ++ [name]⟩, r)
    | _ => none
  | '[' :: r =>
    match ← key? r with
    | ((path, name), ']' :: r) =>
      return (⟨← d.members.openTable path name, path ++ [name]⟩, r)
    | _ => none
  | _ => none

def pair? (d : Draft) (cs : List Char) : Option (Draft × List Char) := do
  match ← key? cs with
  | ((path, name), '=' :: r) =>
    let (v, r) ← value? (2 * cs.length + 2) depthLimit (skipSpace r)
    let members ← Members.within .implied
      (fun _ members => members.insert path name v) d.header .header d.members
    return ({ d with members }, r)
  | _ => none

def lines? : (fuel : Nat) → Draft → List Char → Option Members
  | 0, _, _ => none
  | fuel + 1, d, cs =>
    match skipSpace cs with
    | [] => some d.members
    | '[' :: r => do
      let (d, r) ← header? d ('[' :: r)
      lines? fuel d (← lineEnd? r)
    | c :: r => do
      match lineEnd? (c :: r) with
      | some r => lines? fuel d r
      | none =>
        let (d, r) ← pair? d (c :: r)
        lines? fuel d (← lineEnd? r)

/-! ## Dates spelled as tables -/

def dateKey : String := "$__toml_private_datetime"

mutual

/-- A value in which tables that begin with `dateKey` are the dates that it gives. -/
def Value.withDates? : Value → Option Value
  | .table [] => some (.table [])
  | .table ((key, v) :: rest) => do
    if key = dateKey then
      match v with
      | .string s => (wholeDatetime? s.toList).map .datetime
      | _ => none
    else return .table ((key, ← v.withDates?) :: (← membersWithDates? rest))
  | .array vs => (itemsWithDates? vs).map .array
  | v => some v

def itemsWithDates? : List Value → Option (List Value)
  | [] => some []
  | v :: rest => do return (← v.withDates?) :: (← itemsWithDates? rest)

def membersWithDates? : List (String × Value) → Option (List (String × Value))
  | [] => some []
  | (key, v) :: rest => do return (key, ← v.withDates?) :: (← membersWithDates? rest)

end

/-! ## Documents -/

/-- A whole document, which is a table. A byte order mark at its beginning does not count. -/
def read? (s : String) : Option (List (String × Value)) := do
  let cs := match s.toList with
    | '\uFEFF' :: r => r
    | r => r
  match ← (Value.table (toMembers (← lines? (cs.length + 1) {} cs))).withDates? with
  | .table members => return members
  | _ => none

end BlockStage.Toml
