import Mathlib.Data.List.DropRight
import BlockStage.Proofs.Observation
import BlockStage.Session.Request

/-! # Chronicles

A chronicle is an engine to which requests are made and nobody listens, so all that is reported
piles up in it, and among it the notes of a session, in the order in which they were made. A session
shows a chronicle: its engine is that of the chronicle, and its log holds the last lines and the
last highlight. How many lines it has room for makes no difference to anything else.
-/
namespace BlockStage

open Session (Request Reply)

/-! ## Logs -/

namespace LogBuffer

/-- The log of a size that has heard all of the signals, the newest of which comes first. -/
def hearing (size : Nat) (signals : List Signal) : LogBuffer where
  capacity := size
  recent := (signals.filterMap Signal.line?).take size
  highlighted := (signals.findSome? Signal.highlighted?).join

theorem foldl_highlighted (signals : List Signal) (block : Option String) :
    signals.reverse.foldl (fun block s => s.highlighted?.getD block) block =
      (signals.findSome? Signal.highlighted?).getD block := by
  induction signals with
  | nil => rfl
  | cons s signals ih =>
    rw [List.reverse_cons, List.foldl_append, ih]
    cases s with
    | log line => rfl
    | highlight block => rfl

theorem hearing_receiveAll (size : Nat) (later earlier : List Signal) :
    (hearing size earlier).receiveAll later.reverse = hearing size (later ++ earlier) := by
  have block : (later.findSome? Signal.highlighted?).getD
      (earlier.findSome? Signal.highlighted?).join =
      ((later ++ earlier).findSome? Signal.highlighted?).join := by
    rw [List.findSome?_append]
    cases later.findSome? Signal.highlighted? <;> rfl
  simp only [receiveAll, hearing, foldl_highlighted, List.filterMap_reverse, List.reverse_reverse,
    take_append_take, block, List.filterMap_append]

theorem hearing_push (size : Nat) (signals : List Signal) (line : String) :
    (hearing size signals).push line = hearing size (.log line :: signals) := by
  have lines := take_append_take size [line] (signals.filterMap Signal.line?)
  simp only [List.singleton_append] at lines
  simp only [push, hearing, lines]
  rfl

theorem hearing_lines (size : Nat) (signals : List Signal) :
    (hearing size signals).lines = (signals.filterMap Signal.line?).reverse.rtake size := by
  rw [List.rtake_eq_reverse_take_reverse, List.reverse_reverse]
  rfl

end LogBuffer

/-! ## Chronicles -/

namespace Engine

/-- All lines that have been reported, the oldest first. -/
def lines (e : Engine) : List String := (e.signals.filterMap Signal.line?).reverse

def chronicleRun (e : Engine) (now : Nat) (g : Workspace.Graph) : Engine :=
  let p := g.compile
  let e := e.report s!"Compiled: {p.scripts.length} script(s)."
  ((e.stop.load p).bind (e.sprite.getD .home)).start now

/-- Makes a request, and reports what a session notes about it. -/
def chronicle (e : Engine) : Request → Engine
  | .run now g => e.chronicleRun now g
  | .runWorkspace now v =>
    match Workspace.Graph.ofJson v with
    | .error _ => e
    | .ok g => e.chronicleRun now g
  | .stop => e.stop.report "Stopped."
  | .reset =>
    { e.stop with sprite := e.sprite.map fun _ => .home }.report "Reset sprite + stopped engine."
  | .save (.error _) => e
  | .save (.ok ()) => e.report "Saved project."
  | .load (.error _) => e
  | .load (.ok none) => e.report "No saved project found."
  | .load (.ok (some _)) => e.report "Loaded project."
  | .tick now => (e.tick now).1

def chronicleAll (e : Engine) (requests : List Request) : Engine := requests.foldl chronicle e

/-- The session that shows a chronicle in a log of a size. -/
def shown (size : Nat) (e : Engine) : Session where
  engine := { e with signals := [] }
  log := .hearing size e.signals

variable {size : Nat}

theorem chronicleRun_neverLooksBack (now : Nat) (g : Workspace.Graph) :
    NeverLooksBack (chronicleRun · now g) := by
  intro earlier e
  let p := g.compile
  let e' := e.report s!"Compiled: {p.scripts.length} script(s)."
  exact NeverLooksBack.start now earlier ((e'.stop.load p).bind (e'.sprite.getD .home))

theorem chronicle_neverLooksBack (r : Request) : NeverLooksBack (chronicle · r) := by
  intro earlier e
  cases r with
  | run now g => exact chronicleRun_neverLooksBack now g earlier e
  | runWorkspace now v =>
    unfold chronicle
    dsimp only
    split
    · rfl
    · exact chronicleRun_neverLooksBack now _ earlier e
  | stop => rfl
  | reset => rfl
  | save answer => cases answer <;> rfl
  | load answer =>
    obtain error | none | some := answer
    · rfl
    · rfl
    · rfl
  | tick now => exact NeverLooksBack.tick now earlier e

/-- Nothing is ever taken out of a chronicle. -/
theorem chronicleAll_signals (e : Engine) (requests : List Request) :
    e.signals <:+ (e.chronicleAll requests).signals := by
  induction requests generalizing e with
  | nil => exact List.suffix_rfl
  | cons r requests ih =>
    have first : e.signals <:+ (e.chronicle r).signals :=
      ⟨_, ((chronicle_neverLooksBack r).signals_eq e).symm⟩
    exact first.trans (ih (e.chronicle r))

theorem chronicleAll_lines (e : Engine) (requests more : List Request) :
    (e.chronicleAll requests).lines <+: (e.chronicleAll (requests ++ more)).lines := by
  rw [chronicleAll, chronicleAll, List.foldl_append]
  exact List.reverse_prefix.mpr ((chronicleAll_signals _ more).filterMap Signal.line?)

/-! ## Sessions -/

theorem shown_note (e : Engine) (line : String) :
    (e.shown size).note line = (e.report line).shown size :=
  congrArg (Session.mk { e with signals := [] }) (LogBuffer.hearing_push size e.signals line)

theorem shown_observe {f : Engine → Engine} (blind : NeverLooksBack f) (e : Engine) :
    (e.shown size).observe f = (f e).shown size := by
  -- The log has heard the earlier reports, so the engine of the session is without them.
  have reports : f e = (f { e with signals := [] }).unheard e.signals :=
    blind e.signals { e with signals := [] }
  rw [reports]
  exact congrArg (Session.mk { f { e with signals := [] } with signals := [] })
    (LogBuffer.hearing_receiveAll size (f { e with signals := [] }).signals e.signals)

theorem shown_run (e : Engine) (now : Nat) (g : Workspace.Graph) :
    (e.shown size).run now g = (e.chronicleRun now g).shown size := by
  have start : NeverLooksBack fun e' =>
      ((e'.stop.load g.compile).bind (e.sprite.getD .home)).start now := by
    intro earlier e'
    exact NeverLooksBack.start now earlier ((e'.stop.load g.compile).bind (e.sprite.getD .home))
  unfold Session.run
  dsimp only
  rw [shown_note]
  exact shown_observe start _

theorem shown_perform (e : Engine) (r : Request) :
    ((e.shown size).perform r).1 = (e.chronicle r).shown size := by
  cases r with
  | run now g => exact shown_run e now g
  | runWorkspace now v =>
    unfold Session.perform Session.runWorkspace chronicle
    dsimp only
    cases Workspace.Graph.ofJson v with
    | error fault => rfl
    | ok g => exact shown_run e now g
  | stop =>
    change ((e.shown size).observe Engine.stop).note "Stopped." = _
    rw [shown_observe NeverLooksBack.stop, shown_note]
    rfl
  | reset =>
    have blind : NeverLooksBack fun e =>
        { e.stop with sprite := e.sprite.map fun _ => .home } := fun _ _ => rfl
    change ((e.shown size).observe _).note _ = _
    rw [shown_observe blind, shown_note]
    rfl
  | save answer =>
    cases answer with
    | error fault => rfl
    | ok => exact shown_note e _
  | load answer =>
    obtain error | none | some := answer
    · rfl
    · exact shown_note e _
    · exact shown_note e _
  | tick now =>
    change (e.shown size).observe (fun e => (e.tick now).1) = _
    exact shown_observe (NeverLooksBack.tick now) e

theorem shown_reply (e : Engine) (size' : Nat) (r : Request) :
    ((e.shown size').perform r).2 = ((e.shown size).perform r).2 := by
  cases r with
  | runWorkspace now v =>
    unfold Session.perform Session.runWorkspace
    dsimp only
    cases Workspace.Graph.ofJson v <;> rfl
  | save answer => cases answer <;> rfl
  | load answer => obtain error | none | some := answer <;> rfl
  | _ => rfl

/-- Whether somebody listens makes no difference to the outcome of a tick. -/
theorem shown_tick (e : Engine) (now : Nat) : ((e.shown size).tick now).2 = (e.tick now).2 :=
  (tick_outcome_unheard { e with signals := [] } e.signals now).symm

theorem shown_performAll (e : Engine) (requests : List Request) :
    (e.shown size).performAll requests = (e.chronicleAll requests).shown size := by
  induction requests generalizing e with
  | nil => rfl
  | cons r requests ih =>
    change ((e.shown size).perform r).1.performAll requests = _
    rw [shown_perform, ih]
    rfl

theorem shown_replies (e : Engine) (size' : Nat) (requests : List Request) :
    (e.shown size').replies requests = (e.shown size).replies requests := by
  induction requests generalizing e with
  | nil => rfl
  | cons r requests ih =>
    unfold Session.replies
    rw [shown_reply e size' r, shown_perform, shown_perform, ih]

end Engine

theorem Session.new_shown (settings : Settings) :
    Session.new settings =
      ({ limits := settings.engine } : Engine).shown (max settings.runner.logCapacity 1) := by
  simp [Session.new, Engine.shown, LogBuffer.withCapacity, LogBuffer.hearing]

/-- The capacity of its log makes no difference to what a session answers and does: with any two
capacities the replies, the engine (threads, counters, variables and the actor) and the highlight
are the same after the same requests, and engine and ticks are those of the chronicle. The log holds
the end of the chronicle, as many lines as its capacity allows and at least one. A chronicle only
grows. -/
theorem log_shows_end_of_chronicle (settings : Settings) (capacity : Nat)
    (requests : List Request) :
    let runner := { settings.runner with logCapacity := capacity }
    let s := Session.new settings
    let s' := Session.new { settings with runner := runner }
    let chronicle := ({ limits := settings.engine } : Engine).chronicleAll
    s'.replies requests = s.replies requests ∧
    (s'.performAll requests).engine = (s.performAll requests).engine ∧
    (s'.performAll requests).log.highlighted = (s.performAll requests).log.highlighted ∧
    (s.performAll requests).engine = { chronicle requests with signals := [] } ∧
    (∀ now, ((s.performAll requests).tick now).2 = ((chronicle requests).tick now).2) ∧
    (s.performAll requests).log.lines =
      (chronicle requests).lines.rtake (max settings.runner.logCapacity 1) ∧
    (s'.performAll requests).log.lines = (chronicle requests).lines.rtake (max capacity 1) ∧
    ∀ more, (chronicle requests).lines <+: (chronicle (requests ++ more)).lines := by
  intro runner s s' chronicle
  simp only [s, s', Session.new_shown, Engine.shown_performAll]
  refine ⟨Engine.shown_replies _ _ requests, rfl, rfl, rfl, ?_, ?_, ?_, ?_⟩
  · exact Engine.shown_tick _
  · exact LogBuffer.hearing_lines _ _
  · exact LogBuffer.hearing_lines _ _
  · exact Engine.chronicleAll_lines _ requests

/-- Three lines in a log for two. -/
example :
    let s := Session.new { runner := { logCapacity := 2 } }
    (s.performAll [.stop, .stop, .reset]).log.lines =
      ["Stopped.", "Reset sprite + stopped engine."] := rfl

end BlockStage
