import BlockStage.Engine.Tick
import BlockStage.LogBuffer
import BlockStage.Project.Store
import BlockStage.Settings.Basic
import BlockStage.Workspace.Compile

/-! # Sessions

An engine together with the log that listens to it, and the actions of an editor: run, stop, reset,
save and load. The actor is the engine's once a program has run, and at home before. An action is
given the time; no signal of the engine is left over after it.
-/
namespace BlockStage

open BlockStage.Json (Value)

structure Session where
  engine : Engine := {}
  log : LogBuffer := {}

namespace Session

def new (settings : Settings) : Session :=
  { engine := { limits := settings.engine }, log := .withCapacity settings.runner.logCapacity }

def sprite (s : Session) : Sprite := s.engine.sprite.getD .home

def note (s : Session) (line : String) : Session := { s with log := s.log.push line }

def observe (s : Session) (f : Engine → Engine) : Session :=
  let (signals, e) := (f s.engine).takeSignals
  { engine := e, log := s.log.receiveAll signals }

/-- Compiles a graph and starts the program in place of the one that was running. -/
def run (s : Session) (now : Nat) (g : Workspace.Graph) : Session :=
  let p := g.compile
  (s.note s!"Compiled: {p.scripts.length} script(s).").observe fun e =>
    ((e.stop.load p).bind s.sprite).start now

/-- Runs a saved workspace. What is no workspace changes nothing. -/
def runWorkspace (s : Session) (now : Nat) (v : Value) : Except Workspace.LoadError Session :=
  (Workspace.Graph.ofJson v).map (s.run now)

def stop (s : Session) : Session := (s.observe Engine.stop).note "Stopped."

def reset (s : Session) : Session :=
  (s.observe fun e => { e.stop with sprite := e.sprite.map fun _ => .home }).note
    "Reset sprite + stopped engine."

def noteSaved (s : Session) : Session := s.note "Saved project."

def noteLoaded (s : Session) :
    Except ProjectError (Option Value) → Except ProjectError (Session × Option Value)
  | .error e => .error e
  | .ok none => .ok (s.note "No saved project found.", none)
  | .ok (some v) => .ok (s.note "Loaded project.", some v)

def save (s : Session) (store : MemoryStore) (date : Timestamp) (v : Value) :
    Session × MemoryStore :=
  (s.noteSaved, store.save date v)

def load (s : Session) (store : MemoryStore) : Except ProjectError (Session × Option Value) :=
  s.noteLoaded store.load

def tick (s : Session) (now : Nat) : Session × TickOutcome :=
  let (e, outcome) := s.engine.tick now
  (s.observe fun _ => e, outcome)

end Session

end BlockStage
