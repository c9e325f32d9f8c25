import BlockStage.Host.Path
import BlockStage.Project.Envelope

/-! # Places for a project

One project is kept in memory or in a file. A project file that is not there is no error: nothing
has been saved yet.
-/
namespace BlockStage

open BlockStage.Json (Value)

structure MemoryStore where
  saved : Option Envelope := none

namespace MemoryStore

def save (_ : MemoryStore) (date : Timestamp) (workspace : Value) : MemoryStore :=
  ⟨some (.enclose date workspace)⟩

def load (s : MemoryStore) : Except ProjectError (Option Value) :=
  match s.saved with
  | none => .ok none
  | some e => some <$> e.extract

end MemoryStore

structure FileStore where
  path : String

namespace FileStore

variable {m : Type → Type} [Monad m] [Host m]

def save (s : FileStore) (workspace : Value) : m (Except ProjectError Unit) := do
  let text := (Envelope.enclose (← Host.date) workspace).fileText
  let made ← match Path.parent? s.path with
    | some dir => Host.makeDirs dir
    | none => pure (.ok ())
  match made with
  | .error fault => return .error (.io s.path fault)
  | .ok () =>
    match ← Host.writeText s.path text with
    | .error fault => return .error (.io s.path fault)
    | .ok () => return .ok ()

def load (s : FileStore) : m (Except ProjectError (Option Value)) := do
  match ← Host.readText s.path with
  | .error .missing => return .ok none
  | .error fault => return .error (.io s.path fault)
  | .ok text => return some <$> Envelope.openText text

end FileStore

end BlockStage
