import BlockStage.Program.Basic
import BlockStage.Sprite

/-! # Threads

A thread runs one script or handler on a stack of frames, one for each command list it is inside
of. The head of the stack is the innermost list. A thread suspends itself inside a timed action, or
while it waits for the threads that its broadcast has started.
-/
namespace BlockStage

inductive FrameKind where
  | seq
  | counted (iteration times : Nat)
  | forever
  deriving Repr, DecidableEq

def FrameKind.isLoop : FrameKind → Bool
  | .seq => false
  | _ => true

structure Frame where
  kind : FrameKind
  commands : List Command
  ip : Nat := 0

namespace Frame

def current? (f : Frame) : Option Command := f.commands[f.ip]?

def advance (f : Frame) : Frame := { f with ip := f.ip + 1 }

end Frame

inductive Motion where
  | move (steps startX startY : Float)
  | turn (degrees startRotation : Float)
  | wait

/-- The lesser of two numbers; what is no number gives way. -/
def lesser (a b : Float) : Float :=
  if a.isNaN then b else if b.isNaN then a else if b < a then b else a

def greater (a b : Float) : Float :=
  if a.isNaN then b else if b.isNaN then a else if a < b then b else a

structure Action where
  motion : Motion
  elapsed : Float := 0
  duration : Float
  /-- The last tick that has been added; the tick of the beginning adds nothing. -/
  advancedAt : Nat

namespace Action

def advance (a : Action) (tick : Nat) (dt : Float) : Action :=
  if a.advancedAt == tick then a
  else { a with advancedAt := tick, elapsed := a.elapsed + dt }

def progress (a : Action) : Float :=
  if a.duration ≤ 0 then 1 else lesser (a.elapsed / a.duration) 1

def apply (a : Action) (p : Float) (s : Sprite) : Sprite :=
  match a.motion with
  | .move steps startX startY =>
    { s with x := startX + s.heading.cos * steps * p, y := startY + s.heading.sin * steps * p }
  | .turn degrees startRotation => { s with rotation := startRotation + degrees * p }
  | .wait => s

end Action

structure Thread where
  id : Nat
  origin : String
  frames : List Frame
  action : Option Action := none
  finished : Bool := false
  /-- The threads started by a broadcast that is waited for. -/
  waitingOn : Option (List Nat) := none
  /-- The tick of its creation; it is stepped from the next one on. -/
  bornTick : Nat

namespace Thread

def label (t : Thread) : String := "#" ++ toString t.id

def start (id : Nat) (script : Script) (tick : Nat) : Thread where
  id := id
  origin := script.id
  frames := [{ kind := .seq, commands := script.commands }]
  bornTick := tick

def advance (t : Thread) : Thread :=
  match t.frames with
  | [] => t
  | f :: fs => { t with frames := f.advance :: fs }

/-- Goes on behind the command whose list has been left; the thread ends with its last frame. -/
def resume (t : Thread) (frames : List Frame) : Thread :=
  match frames with
  | [] => { t with frames := [], finished := true }
  | f :: fs => { t with frames := f.advance :: fs }

def enter (t : Thread) (kind : FrameKind) (body : List Command) : Thread :=
  { t with frames := { kind := kind, commands := body } :: t.frames }

/-- The end of the innermost list: a loop begins anew while it has iterations left. -/
def finishBody (t : Thread) : Thread :=
  match t.frames with
  | [] => { t with finished := true }
  | f :: fs =>
    match f.kind with
    | .seq => t.resume fs
    | .forever => { t with frames := { f with ip := 0 } :: fs }
    | .counted iteration times =>
      if iteration + 1 < times then
        { t with frames := { f with ip := 0, kind := .counted (iteration + 1) times } :: fs }
      else t.resume fs

def finish (t : Thread) : Thread :=
  { t with finished := true, frames := [], action := none, waitingOn := none }

def fromLoop (t : Thread) : List Frame :=
  t.frames.dropWhile (fun f => !f.kind.isLoop)

def nearestLoop? (t : Thread) : Option Nat :=
  match t.fromLoop with
  | [] => none
  | _ :: outer => some outer.length

def drop (t : Thread) : Thread := { t with action := none, waitingOn := none }

def current? (t : Thread) : Option Command := t.frames.head?.bind Frame.current?

end Thread

end BlockStage
