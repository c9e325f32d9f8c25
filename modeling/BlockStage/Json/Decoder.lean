import BlockStage.Json.Document

/-! # Typed reading of documents

A `Decoder` reads one document into a type, from left to right, and may open so many containers
inside one another. Reading a text allows 127 of them; what is skipped over does not count. A value
that is already in memory is read through its document, with room for all of its containers.
-/
namespace BlockStage.Json

/-- Reads a document, given how many more containers may be opened. -/
abbrev Decoder (α : Type) := (levels : Nat) → Doc → Except Fault α

/-- The containers that a text may open inside one another. -/
def textLevels : Nat := 127

namespace Decoder

variable {α δ : Type}

def text (d : Decoder α) (s : String) : Except Fault α := do
  let doc := Document.ofChars s.toList
  let a ← d textLevels doc.root
  if doc.trailing then .error .malformed else return a

def value (d : Decoder α) (v : Value) : Except Fault α :=
  match d v.depth (.ofValue v) with
  | .ok a => .ok a
  | .error _ => .error .unfit

def close : Option Fault → Except Fault Unit
  | none => .ok ()
  | some f => .error f

def string : Decoder String
  | _, .string s => s
  | _, d => .error d.mismatch

def bool : Decoder Bool
  | _, .bool b => .ok b
  | _, d => .error d.mismatch

def float : Decoder Float
  | _, .number n => n.map Number.toFloat
  | _, d => .error d.mismatch

/-- A whole number below the bound; a floating point number is none. -/
def natBelow (bound : Nat) : Decoder Nat
  | _, .number (.ok (.int n)) => if 0 ≤ n ∧ n < bound then .ok n.toNat else .error .unfit
  | _, d => .error d.mismatch

def optional (d : Decoder α) : Decoder (Option α)
  | _, .null => .ok none
  | levels, doc => some <$> d levels doc

def list (d : Decoder α) : Decoder (List α)
  | 0, .array _ _ => .error .malformed
  | levels + 1, .array items gap => do
    let as ← items.mapM (d levels)
    close gap
    return as
  | _, doc => .error doc.mismatch

/-- The members of an object in the order of their keys; of a repeated key the last one counts. -/
def entries (d : Decoder α) : Decoder (Entries α)
  | 0, .object _ _ => .error .malformed
  | levels + 1, .object members gap => do
    let es ← members.foldlM (fun es m => do
      let key ← m.1
      let a ← d levels m.2
      return Entries.insert key a es) []
    close gap
    return es
  | _, doc => .error doc.mismatch

def any : Decoder Value
  | _, .null => .ok .null
  | _, .bool b => .ok (.bool b)
  | _, .number n => n.map .number
  | _, .string s => s.map .string
  | 0, .array _ _ => .error .malformed
  | 0, .object _ _ => .error .malformed
  | levels + 1, .array items gap => do
    let vs ← items.mapM (any levels)
    close gap
    return .array vs
  | levels + 1, .object members gap => do
    let es ← members.foldlM (fun es m => do
      let key ← m.1
      let v ← any levels m.2
      return Entries.insert key v es) []
    close gap
    return .object es
  | _, .broken onRead _ => .error onRead

/-- A record, as an object or as an array of its fields in order. `put` reads one field into a
draft. In an object other members are skipped and a field may not repeat; in an array fields at the
end may be left out. -/
def record (fields : List String) (put : String → (levels : Nat) → Doc → δ → Except Fault δ)
    (blank : δ) : Decoder δ
  | 0, .object _ _ => .error .malformed
  | 0, .array _ _ => .error .malformed
  | levels + 1, .object members gap => do
    let (draft, _) ← members.foldlM (fun (draft, seen) m => do
      let key ← m.1
      if fields.contains key then
        if seen.contains key then .error .unfit
        else return (← put key levels m.2 draft, key :: seen)
      else
        close m.2.skipFault
        return (draft, seen)) (blank, [])
    close gap
    return draft
  | levels + 1, .array items gap => do
    let draft ← (fields.zip items).foldlM (fun draft (key, doc) => put key levels doc draft) blank
    if fields.length < items.length then .error .malformed
    else
      close gap
      return draft
  | _, doc => .error doc.mismatch

def required (a : Option α) : Except Fault α :=
  match a with
  | some a => .ok a
  | none => .error .unfit

end Decoder

end BlockStage.Json
