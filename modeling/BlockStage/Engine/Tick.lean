import BlockStage.Engine.Step

/-! # Ticks

A tick steps the threads in turn, one command each, in passes over the list of threads. It ends when
a pass makes no progress, when the steps of the tick are used up, or when the run ends. Threads that
a tick creates are not stepped in it.
-/
namespace BlockStage

inductive TickOutcome where
  | idle
  | continued
  | stopped
  deriving Repr, DecidableEq

/-- A step that a tick has taken: the engine and the thread before it, the position of the thread,
the time that the tick counts, and whether the step made progress. -/
structure Visit where
  engine : Engine
  position : Nat
  thread : Thread
  dt : Float
  progress : Bool

structure Pass where
  engine : Engine
  left : Nat
  progressed : Bool := false
  ended : Bool := false
  visits : List Visit := []

namespace Pass

def count (p : Pass) : Pass :=
  { p with
    left := p.left - 1
    engine := { p.engine with opsThisSecond := p.engine.opsThisSecond + 1 } }

/-- Steps the thread at position `i`. An engine that has stopped in the step keeps nothing of the
thread. -/
def visit (dt : Float) (i : Nat) (t : Thread) (p : Pass) : Pass :=
  match p.engine.stepThread t dt with
  | (e, t', progress) =>
    let p := { p with
      progressed := p.progressed || progress
      visits := ⟨p.engine, i, t, dt, progress⟩ :: p.visits }
    if e.running then { p with engine := { e with threads := e.threads.set i t' } }
    else { p with engine := e, ended := true }

/-- The turn of the thread at position `i`: it has to be unfinished and older than this tick. The
step that would exceed the operations of a second ends the run instead. -/
def turn (dt : Float) (p : Pass) (i : Nat) : Pass :=
  if p.ended then p
  else
    match p.engine.threads[i]? with
    | none => p
    | some t =>
      if t.finished || p.engine.tickCount ≤ t.bornTick then p
      else if p.left = 0 then { p with ended := true }
      else
        let p := p.count
        if p.engine.limits.maxOpsPerSecond < p.engine.opsThisSecond then
          { p with
            ended := true
            engine := (p.engine.report
              "Safety stop: too many operations/sec (possible infinite loop).").stop }
        else p.visit dt i t

/-- One turn for every thread that is there at the beginning of the pass. -/
def round (dt : Float) (p : Pass) : Pass :=
  (List.range p.engine.threads.length).foldl (turn dt) { p with progressed := false }

/-- Passes until the tick is over. A pass that makes progress uses up a step, so the steps of a tick
bound its passes. -/
def rounds (dt : Float) : (fuel : Nat) → Pass → Pass
  | 0, p => p
  | fuel + 1, p =>
    if p.ended || !p.engine.running || p.left = 0 then p
    else
      let e := { p.engine with threads := p.engine.liveThreads }
      if e.threads.isEmpty then
        { p with engine := (e.report "All scripts finished.").stop, ended := true }
      else
        let p := { p with engine := e }.round dt
        if p.progressed then rounds dt fuel p else p

end Pass

namespace Engine

def delta (e : Engine) (now : Nat) : Float :=
  Time.seconds (min (now - e.lastTick) e.limits.maxFrameDelta)

/-- The counters at the beginning of a tick; operations are counted anew after a second. -/
def beginTick (e : Engine) (now : Nat) : Engine :=
  let e := { e with pending := false, tickCount := e.tickCount + 1, lastTick := now }
  if Time.nanosPerSecond ≤ now - e.windowStart then
    { e with windowStart := now, opsThisSecond := 0 }
  else e

def tickPass (e : Engine) (now : Nat) : Pass :=
  let budget := e.limits.maxStepsPerTick
  Pass.rounds (e.delta now) budget { engine := e.beginTick now, left := budget }

/-- One tick at the given time; nothing happens unless one has been asked for. -/
def tick (e : Engine) (now : Nat) : Engine × TickOutcome :=
  if e.running && e.pending then
    let e := (e.tickPass now).engine
    if e.running then ({ e with pending := true }, .continued) else (e, .stopped)
  else (e, .idle)

inductive Operation where
  | load (p : Program)
  | bind (s : Sprite)
  | start (now : Nat)
  | stop
  | tick (now : Nat)

def perform (e : Engine) : Operation → Engine
  | .load p => e.load p
  | .bind s => e.bind s
  | .start now => e.start now
  | .stop => e.stop
  | .tick now => (e.tick now).1

end Engine

end BlockStage
