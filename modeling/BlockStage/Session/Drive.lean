import BlockStage.Session.Basic

/-! # Driving a session

Ticks frame after frame, on a simulated clock or on that of the host, until the engine stops or a
time limit has passed.
-/
namespace BlockStage

structure RunSummary where
  frames : Nat
  elapsed : Nat
  /-- The engine has stopped by itself and did not reach the time limit. -/
  finished : Bool
  deriving Repr, DecidableEq

namespace Session

structure Progress where
  session : Session
  frames : Nat := 0
  elapsed : Nat := 0

def Progress.summary (p : Progress) : RunSummary :=
  { frames := p.frames, elapsed := p.elapsed, finished := !p.session.engine.running }

def Progress.advance (p : Progress) (start frame : Nat) : Progress :=
  let elapsed := p.elapsed + frame
  { session := (p.session.tick (start + elapsed)).1, frames := p.frames + 1, elapsed }

def simulate (start frame limit : Nat) : (fuel : Nat) → Progress → Progress
  | 0, p => p
  | fuel + 1, p =>
    if p.session.engine.pending && p.elapsed < limit then
      simulate start frame limit fuel (p.advance start frame)
    else p

/-- The number of frames after which a simulated drive has ended. Where no time passes between
frames, the operations of a second bound it. -/
def frameBound (s : Session) (frame limit : Nat) : Nat :=
  if frame = 0 then s.engine.limits.maxOpsPerSecond + 1 else (limit + frame - 1) / frame

/-- Drives on a clock that shows `start` and moves by one frame before each tick. -/
def driveSimulated (s : Session) (start frame limit : Nat) : Session × RunSummary :=
  let p := simulate start frame limit (s.frameBound frame limit) { session := s }
  (p.session, p.summary)

variable {m : Type → Type} [Monad m] [Host m]

/-- Ticks at `due` and every frame from then on; frames that were missed are left out. -/
def pace (now : m Nat) (begun frame limit : Nat) : (fuel due : Nat) → Progress → m Progress
  | 0, _, p => pure p
  | fuel + 1, due, p => do
    if p.session.engine.pending then
      Host.sleepUntil due
      let t ← (Host.clock : m Nat)
      if limit ≤ t - begun then return p
      else
        let session := (p.session.tick (← now)).1
        pace now begun frame limit fuel (due + frame * ((t - due) / frame + 1))
          { p with session, frames := p.frames + 1 }
    else return p

/-- Drives on the clock of the host, the first frame at once; the session itself is told the time
`now`. There is no pace of zero. -/
def driveRealtime (s : Session) (now : m Nat) (frame limit : Nat) :
    m (Option (Session × RunSummary)) := do
  if frame = 0 then return none
  let begun ← (Host.clock : m Nat)
  let p ← pace now begun frame limit (limit / frame + 2) begun { session := s }
  let elapsed := (← (Host.clock : m Nat)) - begun
  return some (p.session, { p with elapsed }.summary)

end Session

end BlockStage
