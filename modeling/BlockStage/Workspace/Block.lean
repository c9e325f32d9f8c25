import BlockStage.Json.Decoder

/-! # Workspaces as trees

A workspace is a list of blocks as the editor saves them, with the variables that fields refer to. A
block holds fields, connected blocks under the names of its inputs, and the block that follows it.
At a connection a real block hides a shadow block.
-/
namespace BlockStage.Workspace

open BlockStage.Json (Value Fault Decoder)

/-- What is connected: a real block, a shadow block that stands in for it, or both. -/
structure Plug (β : Type) where
  block : Option β
  shadow : Option β

inductive Block where
  | mk (kind id : String) (x y : Float) (fields : List (String × Value))
      (inputs : List (String × Plug Block)) (next : Option (Plug Block))

namespace Block

def x : Block → Float
  | .mk _ _ x _ _ _ _ => x

def y : Block → Float
  | .mk _ _ _ y _ _ _ => y

end Block

structure Variable where
  name : String
  id : String

structure Tree where
  blocks : List Block := []
  named : List Variable := []

/-! ## Reading -/

structure PlugDraft where
  block : Option Block := none
  shadow : Option Block := none

def Plug.decoder (block : Decoder Block) : Decoder (Plug Block) := fun levels doc => do
  let draft ← Decoder.record ["block", "shadow"] (fun key levels doc draft => do
    match key with
    | "block" => return { draft with block := ← Decoder.optional block levels doc }
    | _ => return { draft with shadow := ← Decoder.optional block levels doc })
    ({} : PlugDraft) levels doc
  return ⟨draft.block, draft.shadow⟩

structure BlockDraft where
  kind : Option String := none
  id : String := ""
  x : Float := 0
  y : Float := 0
  fields : Entries Value := []
  inputs : Entries (Plug Block) := []
  next : Option (Plug Block) := none

def Block.decodeWithin : (fuel : Nat) → Decoder Block
  | 0, _, _ => .error .malformed
  | fuel + 1, levels, doc => do
    let plug := Plug.decoder (decodeWithin fuel)
    let draft ← Decoder.record ["type", "id", "x", "y", "fields", "inputs", "next"]
      (fun key levels doc draft => do
        match key with
        | "type" => return { draft with kind := some (← Decoder.string levels doc) }
        | "id" => return { draft with id := ← Decoder.string levels doc }
        | "x" => return { draft with x := ← Decoder.float levels doc }
        | "y" => return { draft with y := ← Decoder.float levels doc }
        | "fields" => return { draft with fields := ← Decoder.entries Decoder.any levels doc }
        | "inputs" => return { draft with inputs := ← Decoder.entries plug levels doc }
        | _ => return { draft with next := ← Decoder.optional plug levels doc })
      ({} : BlockDraft) levels doc
    let kind ← Decoder.required draft.kind
    return .mk kind draft.id draft.x draft.y draft.fields draft.inputs draft.next

def Block.decoder : Decoder Block := fun levels => Block.decodeWithin (levels + 1) levels

structure VariableDraft where
  name : Option String := none
  id : Option String := none

def Variable.decoder : Decoder Variable := fun levels doc => do
  let draft ← Decoder.record ["name", "id"] (fun key levels doc draft => do
    match key with
    | "name" => return { draft with name := some (← Decoder.string levels doc) }
    | _ => return { draft with id := some (← Decoder.string levels doc) })
    ({} : VariableDraft) levels doc
  return ⟨← Decoder.required draft.name, ← Decoder.required draft.id⟩

def blocksDecoder : Decoder (List Block) :=
  Decoder.record ["blocks"] (fun _ levels doc _ => Decoder.list Block.decoder levels doc) []

def Tree.decoder : Decoder Tree :=
  Decoder.record ["blocks", "variables"] (fun key levels doc (draft : Tree) => do
    match key with
    | "blocks" => return { draft with blocks := ← blocksDecoder levels doc }
    | _ => return { draft with named := ← Decoder.list Variable.decoder levels doc })
    {}

end BlockStage.Workspace
