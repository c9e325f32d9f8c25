import BlockStage.Json.Printer
import BlockStage.Word
import BlockStage.Workspace.Block

/-! # Workspaces as graphs

Loading a workspace puts its blocks into one list of nodes that refer to each other by position. A
block comes before the blocks on its inputs, these come in the order of the names of the inputs, and
the block that follows it comes last. Blocks that stand on their own are ordered by their place,
from top to bottom and then from left to right.
-/
namespace BlockStage.Workspace

open BlockStage.Json (Value Fault)

inductive LoadError where
  | json (fault : Fault)
  | duplicateId (id : String)
  deriving Repr, DecidableEq

def LoadError.message : LoadError → String
  | .json _ => "invalid workspace JSON:"
  | .duplicateId id => "duplicate block id '" ++ id ++ "'"

structure Node where
  kind : String
  id : String
  fields : Entries String
  inputs : Entries Nat := []
  next : Option Nat := none

structure Graph where
  nodes : Array Node := #[]
  topLevel : List Nat := []

/-- The name of a variable; of entries with the same identifier the last one counts. -/
def nameOf? (named : List Variable) (id : String) : Option String :=
  (named.reverse.find? (fun v => v.id == id)).map Variable.name

/-- The text of a field. A reference to a variable reads as the name of the variable, or as what it
holds itself if the variable is not known. -/
def fieldText (named : List Variable) : Value → Option String
  | .string s => some s
  | .number n => some (String.ofList n.write)
  | .bool b => some (if b then "TRUE" else "FALSE")
  | .object members =>
    let known := match Entries.find? "id" members with
      | some (.string id) => nameOf? named id
      | _ => none
    match known with
    | some name => some name
    | none =>
      match (Entries.find? "name" members).or (Entries.find? "id" members) with
      | some (.string s) => some s
      | _ => none
  | _ => none

structure Loader where
  nodes : Array Node := #[]
  seen : List String := []

namespace Loader

/-- Takes up a block without its connections. The empty identifier may repeat. -/
def push (l : Loader) (kind id : String) (fields : Entries String) : Except LoadError Loader :=
  if id.isEmpty then .ok { l with nodes := l.nodes.push { kind, id, fields } }
  else if l.seen.contains id then .error (.duplicateId id)
  else .ok { nodes := l.nodes.push { kind, id, fields }, seen := id :: l.seen }

def connect (l : Loader) (i : Nat) (inputs : Entries Nat) (next : Option Nat) : Loader :=
  { l with nodes := l.nodes.modify i fun n => { n with inputs := inputs, next := next } }

mutual

/-- Loads a block with everything connected to it; the answer is its position. -/
def load (named : List Variable) (l : Loader) : Block → Except LoadError (Nat × Loader)
  | .mk kind id _ _ fields inputs next => do
    let i := l.nodes.size
    let texts := fields.filterMap fun f => (fieldText named f.2).map fun t => (f.1, t)
    let l ← l.push kind id texts
    let (inputs, l) ← loadInputs named l inputs
    let (next, l) ← loadNext named l next
    return (i, l.connect i inputs next)

def loadInputs (named : List Variable) (l : Loader) :
    List (String × Plug Block) → Except LoadError (Entries Nat × Loader)
  | [] => .ok ([], l)
  | (name, plug) :: rest => do
    let (target, l) ← loadPlug named l plug
    let (inputs, l) ← loadInputs named l rest
    match target with
    | none => return (inputs, l)
    | some i => return ((name, i) :: inputs, l)

def loadNext (named : List Variable) (l : Loader) :
    Option (Plug Block) → Except LoadError (Option Nat × Loader)
  | none => .ok (none, l)
  | some plug => loadPlug named l plug

def loadPlug (named : List Variable) (l : Loader) :
    Plug Block → Except LoadError (Option Nat × Loader)
  | ⟨some b, _⟩ => do
    let (i, l) ← load named l b
    return (some i, l)
  | ⟨none, some b⟩ => do
    let (i, l) ← load named l b
    return (some i, l)
  | ⟨none, none⟩ => .ok (none, l)

end

def loadAll (named : List Variable) :
    Loader → List Block → Except LoadError (List ((Float × Float) × Nat) × Loader)
  | l, [] => .ok ([], l)
  | l, b :: bs => do
    let (i, l) ← l.load named b
    let (rest, l) ← loadAll named l bs
    return (((b.y, b.x), i) :: rest, l)

end Loader

/-- The place of a number in the order of all floating point numbers: minus zero comes right before
zero. -/
def orderKey (x : Float) : Int :=
  let n := x.toBits.toNat
  if n < Word.signedLimit64 then n else -(n - Word.signedLimit64 : Nat) - 1

/-- Higher places come first, and of two on the same height the one further left. -/
def placeLe (a b : (Float × Float) × Nat) : Bool :=
  let (h, k) := (orderKey a.1.1, orderKey b.1.1)
  h < k || (h == k && orderKey a.1.2 ≤ orderKey b.1.2)

namespace Graph

def ofTree (t : Tree) : Except LoadError Graph := do
  let (placed, l) ← Loader.loadAll t.named {} t.blocks
  return ⟨l.nodes, (placed.mergeSort placeLe).map (·.2)⟩

def ofDecoded : Except Fault Tree → Except LoadError Graph
  | .error f => .error (.json f)
  | .ok t => ofTree t

def ofText (s : String) : Except LoadError Graph := ofDecoded (Tree.decoder.text s)

/-- A workspace from a value; `null` is the empty workspace. -/
def ofJson (v : Value) : Except LoadError Graph :=
  match v with
  | .null => .ok {}
  | _ => ofDecoded (Tree.decoder.value v)

def size (g : Graph) : Nat := g.nodes.size

def input? (g : Graph) (i : Nat) (name : String) : Option Nat :=
  g.nodes[i]?.bind fun n => Entries.find? name n.inputs

def next? (g : Graph) (i : Nat) : Option Nat := g.nodes[i]?.bind Node.next

def field? (g : Graph) (i : Nat) (name : String) : Option String :=
  g.nodes[i]?.bind fun n => Entries.find? name n.fields

def kind (g : Graph) (i : Nat) : String := (g.nodes[i]?.map Node.kind).getD ""

def id (g : Graph) (i : Nat) : String := (g.nodes[i]?.map Node.id).getD ""

/-- How a node is reached, how deep it lies, and its position. -/
structure Stop where
  via : String
  depth : Nat
  node : Nat

/-- A node, the nodes on the named inputs and the one that follows, each before what it leads to.
Nodes lead only to later ones, so the number of nodes bounds the depth. -/
def walkFrom (g : Graph) (inputs : List String) : (fuel : Nat) → (via : String) → (depth : Nat) →
    (i : Nat) → List Stop
  | 0, _, _, _ => []
  | fuel + 1, via, depth, i =>
    let below := inputs.flatMap fun name =>
      match g.input? i name with
      | none => []
      | some j => walkFrom g inputs fuel name (depth + 1) j
    let after := match g.next? i with
      | none => []
      | some j => walkFrom g inputs fuel "next" (depth + 1) j
    ⟨via, depth, i⟩ :: (below ++ after)

def walk (g : Graph) (inputs : List String) : List Stop :=
  g.topLevel.flatMap (g.walkFrom inputs g.size "top" 0)

end Graph

end BlockStage.Workspace
