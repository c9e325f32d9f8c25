import BlockStage.Digest.Sha256
import BlockStage.Host.Basic
import BlockStage.Json.Decoder
import BlockStage.Json.Printer

/-! # Saved projects

A workspace is kept as it is, whatever value it may be, in an envelope that tells the format, when
it was saved, and a digest by which a damaged one is noticed.
-/
namespace BlockStage

open BlockStage.Json (Value Fault Decoder)

inductive ProjectError where
  | io (path : String) (fault : FileFault)
  | json (fault : Fault)
  | keyMismatch (key : String)
  | hashMismatch (expected computed : String)
  deriving Repr, DecidableEq

namespace ProjectError

def message : ProjectError → String
  | .io path fault => "I/O error on " ++ path ++ ": " ++ fault.message
  | .json _ => "malformed project file:"
  | .keyMismatch key => "unexpected project key '" ++ key ++ "'"
  | .hashMismatch expected computed =>
    "content hash mismatch: expected " ++ expected ++ ", computed " ++ computed

end ProjectError

structure Envelope where
  key : String
  savedAt : Timestamp
  contentHash : String
  workspace : Value

/-- The digest of a value: of its compact text. -/
def contentHash (v : Value) : String := Digest.ofText (v.render .compact)

namespace Envelope

def currentKey : String := "block-platform.project.v1"

def enclose (savedAt : Timestamp) (workspace : Value) : Envelope :=
  { key := currentKey, savedAt, contentHash := BlockStage.contentHash workspace, workspace }

/-- Takes the workspace out if the key and then the digest are right. -/
def extract (e : Envelope) : Except ProjectError Value :=
  let computed := BlockStage.contentHash e.workspace
  if e.key ≠ currentKey then .error (.keyMismatch e.key)
  else if e.contentHash ≠ computed then .error (.hashMismatch e.contentHash computed)
  else .ok e.workspace

def toJson (e : Envelope) : Value :=
  .object [("key", .string e.key), ("saved_at", .string e.savedAt.display),
    ("content_hash", .string e.contentHash), ("workspace", e.workspace)]

structure Draft where
  key : Option String := none
  savedAt : Option Timestamp := none
  contentHash : Option String := none
  workspace : Option Value := none

def timestamp : Decoder Timestamp := fun levels doc => do
  let text ← Decoder.string levels doc
  Decoder.required (Timestamp.read? text.toList)

def decoder : Decoder Envelope := fun levels doc => do
  let draft ← Decoder.record ["key", "saved_at", "content_hash", "workspace"]
    (fun key levels doc (draft : Draft) => do
      match key with
      | "key" => return { draft with key := ← Decoder.string levels doc }
      | "saved_at" => return { draft with savedAt := ← timestamp levels doc }
      | "content_hash" => return { draft with contentHash := ← Decoder.string levels doc }
      | _ => return { draft with workspace := ← Decoder.any levels doc })
    {} levels doc
  return { key := ← Decoder.required draft.key
           savedAt := ← Decoder.required draft.savedAt
           contentHash := ← Decoder.required draft.contentHash
           workspace := ← Decoder.required draft.workspace }

def ofJson (v : Value) : Except Fault Envelope := decoder.value v

def ofText (s : String) : Except Fault Envelope := decoder.text s

def fileText (e : Envelope) : String := e.toJson.render .pretty

def openText (s : String) : Except ProjectError Value :=
  match ofText s with
  | .ok e => e.extract
  | .error f => .error (.json f)

end Envelope

end BlockStage
