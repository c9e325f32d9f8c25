import BlockStage.Engine.Basic

/-! # Single steps

A step runs one command of one thread, or leaves a command list whose end is reached. The thread is
handed to the step and given back by it; of the other threads a step only asks which ones are still
live, and it changes their list only by appending handlers or by ending the run.
-/
namespace BlockStage

inductive StepResult where
  | advance
  /-- It arranged the frames itself. -/
  | stay
  /-- It goes on in the next tick. -/
  | pending
  deriving Repr, DecidableEq

namespace Engine

/-- Iterations of a counted loop: the number rounded down, between zero and `2 ^ 64 - 1`. -/
def loopCount (x : Float) : Nat :=
  match Decimal.shape x with
  | .finite false b => min (b.floorAt 0) (Word.limit64 - 1)
  | .infinite false => Word.limit64 - 1
  | .finite true _ | .infinite true | .notANumber => 0

def clamp (x low high : Float) : Float :=
  if x < low then low else if high < x then high else x

def beginAction? (e : Engine) : Instruction → Option Action
  | .move steps =>
    e.sprite.map fun s =>
      let n := steps.evalNumber e.store
      { motion := .move n s.x s.y, duration := clamp (n.abs / 200) 0.05 2
        advancedAt := e.tickCount }
  | .turn degrees =>
    e.sprite.map fun s =>
      let n := degrees.evalNumber e.store
      { motion := .turn n s.rotation, duration := clamp (n.abs / 180) 0.05 1.5
        advancedAt := e.tickCount }
  | .wait seconds =>
    some { motion := .wait, duration := greater (seconds.evalNumber e.store) 0
           advancedAt := e.tickCount }
  | _ => none

def stepAction (e : Engine) (t : Thread) (i : Instruction) (dt : Float) :
    Engine × Thread × StepResult :=
  match t.action.or (e.beginAction? i) with
  | none => (e, t, .advance)
  | some a =>
    let a := a.advance e.tickCount dt
    let p := a.progress
    let e := { e with sprite := e.sprite.map (a.apply p) }
    if 1 ≤ p then (e, { t with action := none }, .advance)
    else (e, { t with action := some a }, .pending)

def handlersFor (e : Engine) (message : String) : List Script :=
  match e.program with
  | none => []
  | some p => p.handlersFor message

def stepBroadcast (e : Engine) (t : Thread) (message : Expr) : Engine × Thread × StepResult :=
  let m := (message.eval e.store).display
  ((e.report s!"broadcast \"{m}\"").spawn (e.handlersFor m), t, .advance)

def stepWaiting (e : Engine) (t : Thread) (ids : List Nat) : Engine × Thread × StepResult :=
  if ids.any e.isLive then (e, { t with waitingOn := some ids }, .pending)
  else (e, { t with waitingOn := none }, .advance)

/-- Starts the handlers of a message at the first step, and waits for them. -/
def stepBroadcastWait (e : Engine) (t : Thread) (message : Expr) : Engine × Thread × StepResult :=
  match t.waitingOn with
  | some ids => e.stepWaiting t ids
  | none =>
    let m := (message.eval e.store).display
    let handlers := e.handlersFor m
    let ids := (startThreads e.tickCount e.nextThreadId handlers).map Thread.id
    ((e.report s!"broadcast \"{m}\" and wait").spawn handlers).stepWaiting t ids

def stepBreak (e : Engine) (t : Thread) : Engine × Thread × StepResult :=
  match t.fromLoop with
  | [] => (e.report "break: no loop to break.", t, .advance)
  | _ :: outer => (e, t.drop.resume outer, .stay)

def stepContinue (e : Engine) (t : Thread) : Engine × Thread × StepResult :=
  match t.fromLoop with
  | [] => (e.report "continue: no loop to continue.", t, .advance)
  | loop :: outer =>
    let loop := { loop with ip := loop.commands.length }
    (e, { t.drop with frames := loop :: outer }.finishBody, .stay)

/-- Writes a variable; the empty name holds nothing. -/
def assign (e : Engine) (name : String) (x : Float) : Engine :=
  if name.isEmpty then e else { e with store := e.store.insert name x }

def stepInstruction (e : Engine) (t : Thread) (i : Instruction) (dt : Float) :
    Engine × Thread × StepResult :=
  match i with
  | .move _ | .turn _ | .wait _ => e.stepAction t i dt
  | .setVar name value =>
    let x := value.evalNumber e.store
    ((e.assign name x).report s!"set {name} = {Decimal.display x}", t, .advance)
  | .changeVar name delta =>
    let d := delta.evalNumber e.store
    let x := e.store.read name + d
    ((e.assign name x).report
      s!"change {name} by {Decimal.display d} -> {Decimal.display x}", t, .advance)
  | .deleteVar name =>
    ({ e with store := e.store.erase name }.report
      s!"delete {name} (defaults to 0 when read)", t, .advance)
  | .broadcast message wait =>
    if wait then e.stepBroadcastWait t message else e.stepBroadcast t message
  | .breakLoop => e.stepBreak t
  | .continueLoop => e.stepContinue t
  | .stopAll => ((e.report "STOP ALL encountered.").stop, t, .stay)
  | .stopThis => (e.report "STOP THIS SCRIPT encountered.", t.finish, .stay)
  | .unsupported => (e, t, .advance)

def stepCommand (e : Engine) (t : Thread) (c : Command) (dt : Float) :
    Engine × Thread × StepResult :=
  let e := if c.blockId.isEmpty then e else e.highlight (some c.blockId)
  match c with
  | .simple _ i => e.stepInstruction t i dt
  | .repeatTimes _ times body =>
    let n := loopCount (times.evalNumber e.store)
    if n = 0 then (e, t, .advance) else (e, t.enter (.counted 0 n) body, .stay)
  | .forever _ body => (e, t.enter .forever body, .stay)
  | .ifThen _ cond body =>
    if cond.evalCondition e.store then (e, t.enter .seq body, .stay) else (e, t, .advance)
  | .ifElse _ cond thenBody elseBody =>
    (e, t.enter .seq (if cond.evalCondition e.store then thenBody else elseBody), .stay)

def stepThread (e : Engine) (t : Thread) (dt : Float) : Engine × Thread × Bool :=
  match t.frames with
  | [] => (e, { t with finished := true }, true)
  | f :: _ =>
    match f.current? with
    | none => (e, t.finishBody, true)
    | some c =>
      match e.stepCommand t c dt with
      | (e, t, .advance) => (e, t.advance, true)
      | (e, t, .stay) => (e, t, true)
      | (e, t, .pending) => (e, t, false)

end Engine

end BlockStage
