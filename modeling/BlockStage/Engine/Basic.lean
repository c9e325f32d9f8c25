import BlockStage.Engine.Thread
import BlockStage.Evaluation
import BlockStage.Time

/-! # The engine

The state of a run: program, actor, variables, threads and counters. The engine reads no clock and
writes nowhere: operations are given the time, and what is reported to the observer is collected in
`signals`, the newest first.
-/
namespace BlockStage

structure Limits where
  maxOpsPerSecond : Nat := 10000
  maxStepsPerTick : Nat := 400
  maxFrameDeltaMs : Nat := 50
  deriving Repr, DecidableEq

def Limits.maxFrameDelta (l : Limits) : Nat := l.maxFrameDeltaMs * Time.nanosPerMilli

inductive Signal where
  | log (line : String)
  | highlight (block : Option String)
  deriving Repr, DecidableEq

def Signal.line? : Signal → Option String
  | .log line => some line
  | .highlight _ => none

def Signal.highlighted? : Signal → Option (Option String)
  | .log _ => none
  | .highlight block => some block

structure Engine where
  limits : Limits := {}
  program : Option Program := none
  sprite : Option Sprite := none
  store : Store := .empty
  threads : List Thread := []
  running : Bool := false
  /-- A tick has been asked for. -/
  pending : Bool := false
  tickCount : Nat := 0
  lastTick : Nat := 0
  /-- The beginning of the second in which operations are counted. -/
  windowStart : Nat := 0
  opsThisSecond : Nat := 0
  nextThreadId : Nat := 1
  signals : List Signal := []

namespace Engine

def report (e : Engine) (line : String) : Engine :=
  { e with signals := .log line :: e.signals }

def highlight (e : Engine) (block : Option String) : Engine :=
  { e with signals := .highlight block :: e.signals }

def takeSignals (e : Engine) : List Signal × Engine :=
  (e.signals.reverse, { e with signals := [] })

def readVar (e : Engine) (name : String) : Float := e.store.read name

def liveThreads (e : Engine) : List Thread := e.threads.filter (fun t => !t.finished)

def isLive (e : Engine) (id : Nat) : Bool := e.threads.any (fun t => t.id == id && !t.finished)

def startThreads (tick : Nat) : (id : Nat) → List Script → List Thread
  | _, [] => []
  | id, s :: ss => Thread.start id s tick :: startThreads tick (id + 1) ss

def spawn (e : Engine) (scripts : List Script) : Engine :=
  { e with
    threads := e.threads ++ startThreads e.tickCount e.nextThreadId scripts
    nextThreadId := e.nextThreadId + scripts.length }

def load (e : Engine) (p : Program) : Engine := { e with program := some p }

def bind (e : Engine) (s : Sprite) : Engine := { e with sprite := some s }

/-- Ends the run; the highlight is cleared in any case. -/
def stop (e : Engine) : Engine :=
  { e with running := false, pending := false, threads := [] }.highlight none

/-- Starts all scripts of the program. Without a program, an actor or a script there is only a log
line. -/
def start (e : Engine) (now : Nat) : Engine :=
  match e.program, e.sprite with
  | some p, some _ =>
    if p.scripts.isEmpty then e.report "No start scripts found."
    else
      { ({ e with threads := [] }.spawn p.scripts) with
        lastTick := now
        windowStart := now
        opsThisSecond := 0
        running := true
        pending := true }.report s!"Engine started ({p.scripts.length} script(s))."
  | _, _ => e.report "Engine: missing program/runtime."

def summary (e : Engine) : String :=
  "Engine \x7b running: " ++ toString e.running ++ ", threads: " ++ toString e.threads.length ++
    ", tick_count: " ++ toString e.tickCount ++ ", ops_this_second: " ++
    toString e.opsThisSecond ++ ", .. \x7d"

end Engine

end BlockStage
