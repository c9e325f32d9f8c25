import BlockStage.Session.Basic

/-! # Requests

What a host asks of a session, one request after the other, and what it is told. A place for a
project is outside of the session, which learns no more than its answers. A request that fails
leaves the session as it is.
-/
namespace BlockStage

open BlockStage.Json (Value)

namespace Session

/-- Times are those that the clock shows at the request. -/
inductive Request where
  | run (now : Nat) (g : Workspace.Graph)
  | runWorkspace (now : Nat) (v : Value)
  | stop
  | reset
  | save (answer : Except ProjectError Unit)
  | load (answer : Except ProjectError (Option Value))
  | tick (now : Nat)

inductive Reply where
  | done
  | unreadable (e : Workspace.LoadError)
  | unavailable (e : ProjectError)
  | loaded (v : Option Value)
  | ticked (outcome : TickOutcome)

def perform (s : Session) : Request → Session × Reply
  | .run now g => (s.run now g, .done)
  | .runWorkspace now v =>
    match s.runWorkspace now v with
    | .error e => (s, .unreadable e)
    | .ok s' => (s', .done)
  | .stop => (s.stop, .done)
  | .reset => (s.reset, .done)
  | .save (.error e) => (s, .unavailable e)
  | .save (.ok ()) => (s.noteSaved, .done)
  | .load answer =>
    match s.noteLoaded answer with
    | .error e => (s, .unavailable e)
    | .ok (s', v) => (s', .loaded v)
  | .tick now => ((s.tick now).1, .ticked (s.tick now).2)

def performAll (s : Session) (requests : List Request) : Session :=
  requests.foldl (fun s r => (s.perform r).1) s

def replies (s : Session) : List Request → List Reply
  | [] => []
  | r :: rs => (s.perform r).2 :: (s.perform r).1.replies rs

end Session

end BlockStage
