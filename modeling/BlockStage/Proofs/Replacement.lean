import BlockStage.Proofs.Lifecycle
import BlockStage.Session.Request

/-! # One run after another

A run takes the place of the one before it completely, or not at all. A value that is no workspace
changes nothing. The run of a workspace leaves an engine in which only what outlives runs can be
told: bounds, variables, the actor, and the counters of ticks and threads. If there is nothing to
start, the times and the count of operations stay as they were, and nobody can tell them until the
next start sets them anew.
-/
namespace BlockStage

open BlockStage.Json (Value)

namespace Engine

/-- The engines are the same, or both stand still and differ only in what the next start sets. -/
def SameToNextStart (e e' : Engine) : Prop :=
  e' = e ∨ e.running = false ∧ ∃ last window ops,
    e' = { e with lastTick := last, windowStart := window, opsThisSecond := ops }

theorem SameToNextStart.map {f : Engine → Engine} {e e' : Engine} (h : e.SameToNextStart e')
    (still : e.running = false → (f e).running = false)
    (blind : ∀ e last window ops,
      f { e with lastTick := last, windowStart := window, opsThisSecond := ops } =
        { f e with lastTick := last, windowStart := window, opsThisSecond := ops }) :
    (f e).SameToNextStart (f e') := by
  rcases h with rfl | ⟨stopped, last, window, ops, rfl⟩
  · exact Or.inl rfl
  · exact Or.inr ⟨still stopped, last, window, ops, blind e last window ops⟩

theorem SameToNextStart.tick {e e' : Engine} (h : e.SameToNextStart e') (now : Nat) :
    (e.tick now).1.SameToNextStart (e'.tick now).1 ∧ (e'.tick now).2 = (e.tick now).2 := by
  rcases h with rfl | ⟨stopped, last, window, ops, rfl⟩
  · exact ⟨Or.inl rfl, rfl⟩
  · have still : ({ e with lastTick := last, windowStart := window, opsThisSecond := ops } :
        Engine).running = false := stopped
    rw [tick_of_not_running stopped, tick_of_not_running still]
    exact ⟨Or.inr ⟨stopped, last, window, ops, rfl⟩, rfl⟩

end Engine

namespace Session

/-- The sessions agree on what outlives a run. -/
structure Agrees (s s' : Session) : Prop where
  limits : s'.engine.limits = s.engine.limits
  store : s'.engine.store = s.engine.store
  sprite : s'.sprite = s.sprite
  tickCount : s'.engine.tickCount = s.engine.tickCount
  nextThreadId : s'.engine.nextThreadId = s.engine.nextThreadId

/-- The engine of a session after a run of the program at the given time. -/
def renewed (s : Session) (p : Program) (now : Nat) : Engine :=
  let e : Engine :=
    { limits := s.engine.limits, program := some p, sprite := some s.sprite
      store := s.engine.store, tickCount := s.engine.tickCount
      nextThreadId := s.engine.nextThreadId }
  if p.scripts.isEmpty then
    { e with
      lastTick := s.engine.lastTick
      windowStart := s.engine.windowStart
      opsThisSecond := s.engine.opsThisSecond }
  else
    { e.spawn p.scripts with
      lastTick := now, windowStart := now, running := true, pending := true }

variable {s s' r : Session} {p : Program} {now : Nat} {v : Value}

theorem run_engine (s : Session) (now : Nat) (g : Workspace.Graph) :
    (s.run now g).engine = s.renewed g.compile now := by
  change { ((s.engine.stop.load g.compile).bind s.sprite).start now with signals := [] } = _
  unfold Engine.start renewed
  simp only [Engine.bind, Engine.load]
  split
  · rfl
  · rfl

theorem runWorkspace_eq (s : Session) (now : Nat) (v : Value) :
    s.runWorkspace now v =
      match Workspace.Graph.ofJson v with
      | .error e => .error e
      | .ok g => .ok (s.run now g) := by
  unfold runWorkspace
  cases Workspace.Graph.ofJson v <;> rfl

theorem runWorkspace_ok (ran : s.runWorkspace now v = .ok r) :
    ∃ g, Workspace.Graph.ofJson v = .ok g ∧ r = s.run now g ∧
      ∀ s' : Session, s'.runWorkspace now v = .ok (s'.run now g) := by
  rw [runWorkspace_eq] at ran
  split at ran
  · cases ran
  next g read =>
    cases ran
    refine ⟨g, read, rfl, fun s' => ?_⟩
    rw [runWorkspace_eq, read]

theorem renewed_some (h : s.Agrees s') (some : p.scripts ≠ []) :
    s'.renewed p now = s.renewed p now := by
  unfold renewed
  rw [h.limits, h.store, h.sprite, h.tickCount, h.nextThreadId]
  simp only [List.isEmpty_iff, if_neg some]

theorem renewed_none (h : s.Agrees s') (none : p.scripts = []) :
    s'.renewed p now = { s.renewed p now with
      lastTick := s'.engine.lastTick
      windowStart := s'.engine.windowStart
      opsThisSecond := s'.engine.opsThisSecond } := by
  unfold renewed
  rw [h.limits, h.store, h.sprite, h.tickCount, h.nextThreadId]
  simp only [none, List.isEmpty_nil, if_true]

theorem renewed_same (h : s.Agrees s') :
    (s.renewed p now).SameToNextStart (s'.renewed p now) := by
  by_cases none : p.scripts = []
  · have stopped : (s.renewed p now).running = false := by simp [renewed, none]
    exact Or.inr ⟨stopped, _, _, _, renewed_none h none⟩
  · exact Or.inl (renewed_some h none)

theorem agrees_of_same (h : s.engine.SameToNextStart s'.engine) : s.Agrees s' := by
  unfold Engine.SameToNextStart at h
  rcases h with same | ⟨_, last, window, ops, same⟩
  · constructor <;> simp only [sprite, same]
  · constructor <;> simp only [sprite, same]

/-- The next request cannot tell the engines apart, whatever the logs hold. -/
theorem perform_same (h : s.engine.SameToNextStart s'.engine) (request : Request) :
    (s.perform request).1.engine.SameToNextStart (s'.perform request).1.engine ∧
      (s'.perform request).2 = (s.perform request).2 := by
  -- Both kinds of run give what only depends on things in which the sessions agree.
  have runs (now : Nat) (g : Workspace.Graph) :
      (s.run now g).engine.SameToNextStart (s'.run now g).engine := by
    rw [run_engine, run_engine]
    exact renewed_same (agrees_of_same h)
  cases request with
  | run now g => exact ⟨runs now g, rfl⟩
  | runWorkspace now v =>
    unfold perform
    dsimp only
    rw [runWorkspace_eq, runWorkspace_eq]
    cases Workspace.Graph.ofJson v with
    | error fault => exact ⟨h, rfl⟩
    | ok g => exact ⟨runs now g, rfl⟩
  | stop =>
    let f (e : Engine) : Engine := { e.stop with signals := [] }
    exact ⟨h.map (f := f) (fun _ => rfl) fun _ _ _ _ => rfl, rfl⟩
  | reset =>
    let f (e : Engine) : Engine :=
      { e.stop with sprite := e.sprite.map fun _ => .home, signals := [] }
    exact ⟨h.map (f := f) (fun _ => rfl) fun _ _ _ _ => rfl, rfl⟩
  | save answer => cases answer <;> exact ⟨h, rfl⟩
  | load answer => obtain error | none | some := answer <;> exact ⟨h, rfl⟩
  | tick now =>
    obtain ⟨same, outcome⟩ := h.tick now
    let f (e : Engine) : Engine := { e with signals := [] }
    exact ⟨same.map (f := f) (fun still => still) fun _ _ _ _ => rfl,
      congrArg Reply.ticked outcome⟩

theorem replies_same (h : s.engine.SameToNextStart s'.engine) (requests : List Request) :
    s'.replies requests = s.replies requests := by
  induction requests generalizing s s' with
  | nil => rfl
  | cons request requests ih =>
    obtain ⟨same, reply⟩ := perform_same h request
    unfold replies
    rw [reply, ih same]

theorem run_highlighted (s : Session) (now : Nat) (g : Workspace.Graph) :
    (s.run now g).log.highlighted = none := by
  have reports : ∃ line, (((s.engine.stop.load g.compile).bind s.sprite).start now).signals =
      .log line :: .highlight none :: s.engine.signals := by
    unfold Engine.start
    dsimp only
    split
    · split
      · exact ⟨_, rfl⟩
      · exact ⟨_, rfl⟩
    · exact ⟨_, rfl⟩
  obtain ⟨line, reports⟩ := reports
  change (((s.engine.stop.load g.compile).bind s.sprite).start now).signals.reverse.foldl _ _ = none
  rw [reports, List.reverse_cons, List.reverse_cons, List.append_assoc, List.foldl_append]
  rfl

/-- The session is run anew: each script is at its beginning, and of the run before there are left
only the variables and the actor, the numbers of the ticks and of the threads, and where there is
nothing to start, the times and the count of operations. -/
structure RunsAnew (p : Program) (s r : Session) : Prop where
  program : r.engine.program = some p
  threads : r.engine.threads =
    Engine.startThreads s.engine.tickCount s.engine.nextThreadId p.scripts
  running : r.engine.running = !p.scripts.isEmpty
  pending : r.engine.pending = !p.scripts.isEmpty
  store : r.engine.store = s.engine.store
  sprite : r.sprite = s.sprite
  highlighted : r.log.highlighted = none
  times : p.scripts = [] → r.engine.lastTick = s.engine.lastTick ∧
    r.engine.windowStart = s.engine.windowStart ∧ r.engine.opsThisSecond = s.engine.opsThisSecond

theorem run_runsAnew (s : Session) (now : Nat) (g : Workspace.Graph) :
    s.RunsAnew g.compile (s.run now g) := by
  have engine := run_engine s now g
  have lit := run_highlighted s now g
  generalize s.run now g = r at engine lit
  cases none : g.compile.scripts with
  | nil =>
    simp only [renewed, none, List.isEmpty_nil, if_true] at engine
    constructor <;> simp [engine, none, lit, sprite, Engine.startThreads]
  | cons script scripts =>
    simp only [renewed, none, List.isEmpty_cons] at engine
    constructor <;> simp [engine, none, lit, sprite, Engine.spawn]

/-- A value that is no workspace makes no difference at all, then or later. A workspace is run anew,
and two sessions that agree on what outlives a run cannot be told apart behind it: they have the
same engine, except that without scripts each keeps its times and its count of operations, and they
give the same replies ever after. -/
theorem run_replaces_wholly_or_not_at_all (s : Session) (now : Nat) (v : Value) :
    (∀ e, s.runWorkspace now v = .error e →
      s.perform (.runWorkspace now v) = (s, .unreadable e) ∧
      ∀ later, s.performAll (.runWorkspace now v :: later) = s.performAll later ∧
        s.replies (.runWorkspace now v :: later) = .unreadable e :: s.replies later) ∧
    ∀ r, s.runWorkspace now v = .ok r →
      s.perform (.runWorkspace now v) = (r, .done) ∧
      ∃ g, Workspace.Graph.ofJson v = .ok g ∧ s.RunsAnew g.compile r ∧
        ∀ s' : Session, s.Agrees s' → ∃ r', s'.runWorkspace now v = .ok r' ∧
          (g.compile.scripts ≠ [] → r'.engine = r.engine) ∧
          (g.compile.scripts = [] → r'.engine = { r.engine with
            lastTick := s'.engine.lastTick
            windowStart := s'.engine.windowStart
            opsThisSecond := s'.engine.opsThisSecond }) ∧
          ∀ later, r'.replies later = r.replies later := by
  constructor
  · intro e failed
    have step : s.perform (.runWorkspace now v) = (s, .unreadable e) := by
      simp only [perform, failed]
    refine ⟨step, fun later => ⟨?_, ?_⟩⟩
    · rw [performAll, List.foldl_cons, step]
      rfl
    · rw [replies, step]
  · intro r ran
    have step : s.perform (.runWorkspace now v) = (r, .done) := by
      simp only [perform, ran]
    obtain ⟨g, read, rfl, others⟩ := runWorkspace_ok ran
    refine ⟨step, g, read, run_runsAnew s now g, fun s' agrees => ?_⟩
    have same : (s.run now g).engine.SameToNextStart (s'.run now g).engine := by
      rw [run_engine, run_engine]
      exact renewed_same agrees
    refine ⟨s'.run now g, others s', ?_, ?_, replies_same same⟩
    · intro some
      rw [run_engine, run_engine]
      exact renewed_some agrees some
    · intro none
      rw [run_engine, run_engine]
      exact renewed_none agrees none

/-- A session in which nothing has run, with what outlives the runs of the given one. -/
def cleared (s : Session) : Session where
  engine :=
    { limits := s.engine.limits, sprite := some s.sprite, store := s.engine.store
      tickCount := s.engine.tickCount, nextThreadId := s.engine.nextThreadId }

theorem agrees_cleared (s : Session) : s.Agrees s.cleared := ⟨rfl, rfl, rfl, rfl, rfl⟩

/-- A script that waits, one that waits for the handler of its message, and this handler. -/
def pausing : Workspace.Graph where
  nodes := #[{ kind := "bp_start", id := "a", fields := [], next := some 1 },
    { kind := "bp_wait", id := "b", fields := [], inputs := [("SECS", 2)] },
    { kind := "math_number", id := "c", fields := [("NUM", "5")] },
    { kind := "bp_start", id := "d", fields := [], next := some 4 },
    { kind := "bp_broadcast_wait", id := "e", fields := [("MSG", "m")] },
    { kind := "bp_when_receive", id := "f", fields := [("MSG", "m")], inputs := [("DO", 6)] },
    { kind := "bp_wait", id := "g", fields := [], inputs := [("SECS", 7)] },
    { kind := "math_number", id := "h", fields := [("NUM", "5")] }]
  topLevel := [0, 3, 5]

def startBlock : Value := .object [("id", .string "s"), ("type", .string "bp_start")]

def workspaceOf (blocks : List Value) : Value :=
  .object [("blocks", .object [("blocks", .array blocks)])]

theorem runWorkspace_of_scripts {ids : List String} (s : Session) (now : Nat)
    (scripts : (Workspace.Graph.ofJson v).toOption.map
      (fun g => g.compile.scripts.map Script.id) = some ids) :
    ∃ g, Workspace.Graph.ofJson v = .ok g ∧ g.compile.scripts.map Script.id = ids ∧
      s.runWorkspace now v = .ok (s.run now g) := by
  rw [runWorkspace_eq]
  cases read : Workspace.Graph.ofJson v with
  | error fault =>
    rw [read] at scripts
    cases scripts
  | ok g =>
    rw [read] at scripts
    exact ⟨g, rfl, Option.some.inj scripts, rfl⟩

/-- In one session a run is under way, with threads in an action and in a wait, and in the other one
there is none. A workspace in which a name is repeated, one without blocks, and one with a script
are run. -/
theorem run_replaces_wholly_or_not_at_all_pausing :
    let s := (((Session.new {}).run 0 pausing).tick 16000000).1
    let s' := s.cleared
    s.engine.threads.map (fun t => (t.action.isSome, t.waitingOn.isSome)) =
      [(true, false), (false, true), (false, false)] ∧
    s.Agrees s' ∧
    s.perform (.runWorkspace 32000000 (workspaceOf [startBlock, startBlock])) =
      (s, .unreadable (.duplicateId "s")) ∧
    (∃ r r', s.runWorkspace 32000000 (workspaceOf []) = .ok r ∧
      s'.runWorkspace 32000000 (workspaceOf []) = .ok r' ∧ r.engine.opsThisSecond = 2 ∧
      r'.engine = { r.engine with lastTick := 0, windowStart := 0, opsThisSecond := 0 }) ∧
    ∃ r r', s.runWorkspace 32000000 (workspaceOf [startBlock]) = .ok r ∧
      s'.runWorkspace 32000000 (workspaceOf [startBlock]) = .ok r' ∧
      r.engine.threads.map Thread.origin = ["s"] ∧ r'.engine = r.engine := by
  intro s s'
  have agrees : s.Agrees s' := agrees_cleared s
  refine ⟨by decide +kernel, agrees, ?_, ?_, ?_⟩
  · apply ((run_replaces_wholly_or_not_at_all s _ _).1 _ _).1
    have repeats : (match Workspace.Graph.ofJson (workspaceOf [startBlock, startBlock]) with
      | .error e => some e
      | .ok _ => none) = some (.duplicateId "s") := by decide +kernel
    rw [runWorkspace_eq]
    split at repeats
    next => rw [Option.some.inj repeats]
    next => cases repeats
  · have scripts : (Workspace.Graph.ofJson (workspaceOf [])).toOption.map
        (fun g => g.compile.scripts.map Script.id) = some [] := by decide +kernel
    obtain ⟨g, read, names, ran⟩ := runWorkspace_of_scripts s 32000000 scripts
    have none : g.compile.scripts = [] := List.map_eq_nil_iff.mp names
    obtain ⟨_, g', read', anew, others⟩ := (run_replaces_wholly_or_not_at_all s _ _).2 _ ran
    obtain rfl : g = g' := Except.ok.inj (read.symm.trans read')
    obtain ⟨r', ran', _, same, _⟩ := others s' agrees
    exact ⟨_, r', ran, ran', (anew.times none).2.2.trans (by decide +kernel), same none⟩
  · have scripts : (Workspace.Graph.ofJson (workspaceOf [startBlock])).toOption.map
        (fun g => g.compile.scripts.map Script.id) = some ["s"] := by decide +kernel
    obtain ⟨g, read, names, ran⟩ := runWorkspace_of_scripts s 32000000 scripts
    obtain ⟨script, one, origin⟩ := List.map_eq_singleton_iff.mp names
    have some : g.compile.scripts ≠ [] := by simp [one]
    obtain ⟨_, g', read', anew, others⟩ := (run_replaces_wholly_or_not_at_all s _ _).2 _ ran
    obtain rfl : g = g' := Except.ok.inj (read.symm.trans read')
    obtain ⟨r', ran', same, _, _⟩ := others s' agrees
    refine ⟨_, r', ran, ran', ?_, same some⟩
    rw [anew.threads, one]
    simpa [Engine.startThreads, Thread.start] using origin

end Session

end BlockStage
