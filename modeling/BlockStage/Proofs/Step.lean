import BlockStage.Engine.Step

/-! # What a step can do

`Effect` lists all that one step of a thread does to the engine and to the thread itself, with what
it found there. Variables, the actor and the signals are left open: `Quiet` steps change nothing
else of the engine.
-/
namespace BlockStage

/-- Instructions that can take more than one step. -/
def Instruction.isTimed : Instruction → Bool
  | .move _ | .turn _ | .wait _ => true
  | _ => false

/-- Commands that are done with their first step, or go on inside of a list. -/
def Command.isPlain : Command → Bool
  | .simple _ (.broadcast _ wait) => !wait
  | .simple _ i => !i.isTimed
  | _ => true

/-- The list that a control command runs, with the frame that is made for it. -/
inductive Opens : Command → FrameKind → List Command → Prop where
  | counted {id times body i n} (h : i < n) : Opens (.repeatTimes id times body) (.counted i n) body
  | forever {id body} : Opens (.forever id body) .forever body
  | ifThen {id cond body} : Opens (.ifThen id cond body) .seq body
  | thenBranch {id cond a b} : Opens (.ifElse id cond a b) .seq a
  | elseBranch {id cond a b} : Opens (.ifElse id cond a b) .seq b

namespace Engine

/-- Nothing differs but the variables, the actor and the signals. -/
def Quiet (e e' : Engine) : Prop :=
  ∃ store sprite signals, e' = { e with store := store, sprite := sprite, signals := signals }

namespace Quiet

variable {e e' : Engine}

theorem refl (e : Engine) : e.Quiet e := ⟨_, _, _, rfl⟩

theorem trans {e'' : Engine} (h : e.Quiet e') (k : e'.Quiet e'') : e.Quiet e'' := by
  obtain ⟨_, _, _, rfl⟩ := h
  obtain ⟨_, _, _, rfl⟩ := k
  exact ⟨_, _, _, rfl⟩

theorem threads (h : e.Quiet e') : e'.threads = e.threads := by
  obtain ⟨_, _, _, rfl⟩ := h; rfl

theorem program (h : e.Quiet e') : e'.program = e.program := by
  obtain ⟨_, _, _, rfl⟩ := h; rfl

theorem running (h : e.Quiet e') : e'.running = e.running := by
  obtain ⟨_, _, _, rfl⟩ := h; rfl

theorem tickCount (h : e.Quiet e') : e'.tickCount = e.tickCount := by
  obtain ⟨_, _, _, rfl⟩ := h; rfl

theorem nextThreadId (h : e.Quiet e') : e'.nextThreadId = e.nextThreadId := by
  obtain ⟨_, _, _, rfl⟩ := h; rfl

end Quiet

def called (e : Engine) (message : Expr) : List Script :=
  e.handlersFor (message.eval e.store).display

def freshIds (e : Engine) (count : Nat) : List Nat := List.range' e.nextThreadId count

theorem startThreads_ids (tick id : Nat) (scripts : List Script) :
    (startThreads tick id scripts).map Thread.id = List.range' id scripts.length := by
  induction scripts generalizing id with
  | nil => rfl
  | cons s ss ih => simp [startThreads, Thread.start, ih, List.range'_succ]

theorem startThreads_getElem? (tick id : Nat) (scripts : List Script) (j : Nat) :
    (startThreads tick id scripts)[j]? =
      scripts[j]?.map fun s => Thread.start (id + j) s tick := by
  induction scripts generalizing id j with
  | nil => rfl
  | cons s scripts ih =>
    cases j with
    | zero => rfl
    | succ j =>
      have number : id + 1 + j = id + (j + 1) := by omega
      rw [startThreads, List.getElem?_cons_succ, ih, number, List.getElem?_cons_succ]

theorem mem_startThreads {tick id : Nat} {scripts : List Script} {t : Thread}
    (h : t ∈ startThreads tick id scripts) :
    ∃ s ∈ scripts, ∃ k, id ≤ k ∧ k < id + scripts.length ∧ t = Thread.start k s tick := by
  induction scripts generalizing id with
  | nil => simp [startThreads] at h
  | cons s ss ih =>
    rcases List.mem_cons.mp h with rfl | h
    · exact ⟨s, by simp, id, by simp, by simp, rfl⟩
    · obtain ⟨s', hs, k, hk, hk', rfl⟩ := ih h
      exact ⟨s', by simp [hs], k, by omega, by simp; omega, rfl⟩

theorem spawn_isLive (e : Engine) (s : Script) (scripts : List Script) :
    (e.freshIds (s :: scripts).length).any (e.spawn (s :: scripts)).isLive = true := by
  refine List.any_eq_true.mpr ⟨e.nextThreadId, by simp [freshIds], ?_⟩
  simp [isLive, spawn, startThreads, Thread.start]

/-- All that a step of a thread can do, with the thread behind it and whether it made progress. -/
inductive Effect (e : Engine) (t : Thread) (dt : Float) : Engine → Thread → Bool → Prop where
  | empty (bare : t.frames = []) : Effect e t dt e { t with finished := true } true
  | closed {f fs} (top : t.frames = f :: fs) (spent : f.current? = none) :
      Effect e t dt e t.finishBody true
  | passed {e' c} (cur : t.current? = some c) (plain : c.isPlain = true) (quiet : e.Quiet e') :
      Effect e t dt e' t.advance true
  | entered {e' c kind body} (cur : t.current? = some c) (opens : Opens c kind body)
      (quiet : e.Quiet e') : Effect e t dt e' (t.enter kind body) true
  | acting {e' id i a} (cur : t.current? = some (.simple id i)) (timed : i.isTimed = true)
      (begun : t.action = some a ∨ t.action = none ∧ e.beginAction? i = some a)
      (quiet : e.Quiet e') :
      Effect e t dt e' { t with action := some (a.advance e.tickCount dt) } false
  | acted {e' id i} (cur : t.current? = some (.simple id i)) (timed : i.isTimed = true)
      (quiet : e.Quiet e') : Effect e t dt e' { t with action := none }.advance true
  | sent {e' id m} (cur : t.current? = some (.simple id (.broadcast m false)))
      (quiet : e.Quiet e') : Effect e t dt (e'.spawn (e.called m)) t.advance true
  | called {e' id m} (cur : t.current? = some (.simple id (.broadcast m true)))
      (idle : t.waitingOn = none) (heard : e.called m ≠ []) (quiet : e.Quiet e') :
      Effect e t dt (e'.spawn (e.called m))
        { t with waitingOn := some (e.freshIds (e.called m).length) } false
  | unheard {e' id m} (cur : t.current? = some (.simple id (.broadcast m true)))
      (idle : t.waitingOn = none) (unheard : e.called m = []) (quiet : e.Quiet e') :
      Effect e t dt e' t.advance true
  | polled {e' id m ids} (cur : t.current? = some (.simple id (.broadcast m true)))
      (waits : t.waitingOn = some ids) (live : ids.any e.isLive = true) (quiet : e.Quiet e') :
      Effect e t dt e' t false
  | resumed {e' id m ids} (cur : t.current? = some (.simple id (.broadcast m true)))
      (waits : t.waitingOn = some ids) (done : ids.any e.isLive = false) (quiet : e.Quiet e') :
      Effect e t dt e' { t with waitingOn := none }.advance true
  | broke {e' id loop outer} (cur : t.current? = some (.simple id .breakLoop))
      (inside : t.fromLoop = loop :: outer) (quiet : e.Quiet e') :
      Effect e t dt e' (t.drop.resume outer) true
  | continued {e' id loop outer} (cur : t.current? = some (.simple id .continueLoop))
      (inside : t.fromLoop = loop :: outer) (quiet : e.Quiet e') :
      Effect e t dt e'
        { t.drop with
          frames := { loop with ip := loop.commands.length } :: outer }.finishBody true
  | ended {e' id} (cur : t.current? = some (.simple id .stopThis)) (quiet : e.Quiet e') :
      Effect e t dt e' t.finish true
  | halted {e' id} (cur : t.current? = some (.simple id .stopAll)) (quiet : e.Quiet e') :
      Effect e t dt e'.stop t true

def settle : Engine × Thread × StepResult → Engine × Thread × Bool
  | (e, t, .advance) => (e, t.advance, true)
  | (e, t, .stay) => (e, t, true)
  | (e, t, .pending) => (e, t, false)

def Yields (e : Engine) (t : Thread) (dt : Float) (r : Engine × Thread × Bool) : Prop :=
  Effect e t dt r.1 r.2.1 r.2.2

theorem stepThread_command {e : Engine} {t : Thread} {f : Frame} {fs : List Frame} {c : Command}
    {dt : Float} (top : t.frames = f :: fs) (cur : f.current? = some c) :
    e.stepThread t dt = settle (e.stepCommand t c dt) := by
  generalize done : e.stepCommand t c dt = r
  obtain ⟨e', t', result⟩ := r
  cases result <;> simp [stepThread, top, cur, done, settle]

theorem report_quiet (e : Engine) (line : String) : e.Quiet (e.report line) := ⟨_, _, _, rfl⟩

def lit (e : Engine) (id : String) : Engine := if id.isEmpty then e else e.highlight (some id)

theorem lit_quiet (e : Engine) (id : String) :
    e.Quiet (e.lit id) ∧ (e.lit id).store = e.store ∧ (e.lit id).sprite = e.sprite := by
  unfold lit
  split
  · exact ⟨.refl e, rfl, rfl⟩
  · exact ⟨⟨_, _, _, rfl⟩, rfl, rfl⟩

theorem assign_quiet (e : Engine) (name : String) (x : Float) : e.Quiet (e.assign name x) := by
  unfold assign
  split
  · exact .refl e
  · exact ⟨_, _, _, rfl⟩

variable {e e₀ : Engine} {t : Thread} {dt : Float} {id : String}

theorem stepAction_effect {i : Instruction} (quiet : e.Quiet e₀) (same : e₀.store = e.store)
    (actor : e₀.sprite = e.sprite) (cur : t.current? = some (.simple id i))
    (timed : i.isTimed = true) : e.Yields t dt (settle (e₀.stepAction t i dt)) := by
  have begins : e₀.beginAction? i = e.beginAction? i := by
    unfold beginAction?
    rw [same, actor, quiet.tickCount]
  unfold stepAction
  cases ha : t.action.or (e₀.beginAction? i) with
  | none =>
    have idle : t.action = none := (Option.or_eq_none_iff.mp ha).1
    have same : { t with action := none } = t := by cases t; simp_all
    have effect : Effect e t dt _ _ _ := .acted cur timed quiet
    rw [same] at effect
    exact effect
  | some a =>
    rw [Option.or_eq_some_iff, begins] at ha
    obtain ⟨_, _, _, rfl⟩ := quiet
    dsimp only
    split
    · exact Effect.acted cur timed ⟨_, _, _, rfl⟩
    · exact Effect.acting cur timed ha ⟨_, _, _, rfl⟩

theorem stepWaiting_effect {m : Expr} {ids : List Nat} (quiet : e.Quiet e₀)
    (cur : t.current? = some (.simple id (.broadcast m true))) (waits : t.waitingOn = some ids) :
    e.Yields t dt (settle (e₀.stepWaiting t ids)) := by
  have live : e₀.isLive = e.isLive := by
    funext i
    simp [isLive, quiet.threads]
  have same : { t with waitingOn := some ids } = t := by cases t; simp_all
  unfold stepWaiting
  rw [live, same]
  split
  next pending => exact Effect.polled cur waits pending quiet
  next free => exact Effect.resumed cur waits (by simpa using free) quiet

theorem stepWaiting_spawn_effect {m : Expr} (quiet : e.Quiet e₀)
    (cur : t.current? = some (.simple id (.broadcast m true))) (idle : t.waitingOn = none) :
    e.Yields t dt (settle
      ((e₀.spawn (e.called m)).stepWaiting t (e₀.freshIds (e.called m).length))) := by
  have known : e₀.freshIds (e.called m).length = e.freshIds (e.called m).length := by
    simp [freshIds, quiet.nextThreadId]
  cases hs : e.called m with
  | nil =>
    have same : { t with waitingOn := none } = t := by cases t; simp_all
    have effect : Effect e t dt _ _ _ := .unheard cur idle hs quiet
    simpa [Yields, stepWaiting, settle, spawn, startThreads, freshIds, same] using effect
  | cons s scripts =>
    have effect : Effect e t dt _ _ _ := .called cur idle (by simp [hs]) quiet
    rw [hs] at effect known
    unfold stepWaiting
    rw [spawn_isLive, known]
    exact effect

theorem stepBroadcastWait_effect {m : Expr} (quiet : e.Quiet e₀) (same : e₀.store = e.store)
    (cur : t.current? = some (.simple id (.broadcast m true))) :
    e.Yields t dt (settle (e₀.stepBroadcastWait t m)) := by
  have handlers : e₀.handlersFor (m.eval e₀.store).display = e.called m := by
    simp [called, handlersFor, same, quiet.program]
  unfold stepBroadcastWait
  cases waits : t.waitingOn with
  | some ids => exact stepWaiting_effect quiet cur waits
  | none =>
    dsimp only
    rw [handlers, startThreads_ids]
    exact stepWaiting_spawn_effect (quiet.trans (report_quiet ..)) cur waits

theorem stepInstruction_effect {i : Instruction} (quiet : e.Quiet e₀) (same : e₀.store = e.store)
    (actor : e₀.sprite = e.sprite) (cur : t.current? = some (.simple id i)) :
    e.Yields t dt (settle (e₀.stepInstruction t i dt)) := by
  cases i with
  | move _ => exact stepAction_effect quiet same actor cur rfl
  | turn _ => exact stepAction_effect quiet same actor cur rfl
  | wait _ => exact stepAction_effect quiet same actor cur rfl
  | setVar name value =>
    exact Effect.passed cur rfl ((quiet.trans (assign_quiet ..)).trans (report_quiet ..))
  | changeVar name delta =>
    exact Effect.passed cur rfl ((quiet.trans (assign_quiet ..)).trans (report_quiet ..))
  | deleteVar name => exact Effect.passed cur rfl (quiet.trans ⟨_, _, _, rfl⟩)
  | broadcast m wait =>
    cases wait with
    | true => exact stepBroadcastWait_effect quiet same cur
    | false =>
      have handlers : e₀.handlersFor (m.eval e₀.store).display = e.called m := by
        simp [called, handlersFor, same, quiet.program]
      unfold stepInstruction stepBroadcast
      dsimp only
      rw [if_neg (by simp), handlers]
      exact Effect.sent cur (quiet.trans (report_quiet ..))
  | breakLoop =>
    unfold stepInstruction stepBreak
    dsimp only
    split
    · exact Effect.passed cur rfl (quiet.trans (report_quiet ..))
    next inside => exact Effect.broke cur inside quiet
  | continueLoop =>
    unfold stepInstruction stepContinue
    dsimp only
    split
    · exact Effect.passed cur rfl (quiet.trans (report_quiet ..))
    next inside => exact Effect.continued cur inside quiet
  | stopAll => exact Effect.halted cur (quiet.trans (report_quiet ..))
  | stopThis => exact Effect.ended cur (quiet.trans (report_quiet ..))
  | unsupported => exact Effect.passed cur rfl quiet

theorem stepCommand_effect {c : Command} (cur : t.current? = some c) :
    e.Yields t dt (settle (e.stepCommand t c dt)) := by
  have highlighted := e.lit_quiet c.blockId
  unfold lit at highlighted
  unfold stepCommand
  dsimp only
  generalize (if c.blockId.isEmpty = true then e else e.highlight (some c.blockId)) = e₀
    at highlighted ⊢
  obtain ⟨quiet, same, actor⟩ := highlighted
  cases c with
  | simple id i => exact stepInstruction_effect quiet same actor cur
  | repeatTimes id times body =>
    dsimp only
    split
    · exact Effect.passed cur rfl quiet
    next some => exact Effect.entered cur (.counted (by omega)) quiet
  | forever id body => exact Effect.entered cur .forever quiet
  | ifThen id cond body =>
    dsimp only
    split
    · exact Effect.entered cur .ifThen quiet
    · exact Effect.passed cur rfl quiet
  | ifElse id cond thenBody elseBody =>
    dsimp only
    split
    · exact Effect.entered cur .thenBranch quiet
    · exact Effect.entered cur .elseBranch quiet

/-- The list of effects is complete. -/
theorem stepThread_effect (e : Engine) (t : Thread) (dt : Float) :
    e.Yields t dt (e.stepThread t dt) := by
  cases top : t.frames with
  | nil =>
    have effect : Effect e t dt _ _ _ := .empty top
    simpa [Yields, stepThread, top] using effect
  | cons f fs =>
    cases cur : f.current? with
    | none =>
      have effect : Effect e t dt _ _ _ := .closed top cur
      simpa [Yields, stepThread, top, cur] using effect
    | some c =>
      rw [stepThread_command top cur]
      exact stepCommand_effect (by simp [Thread.current?, top, cur])

theorem spawn_nil (e : Engine) : e.spawn [] = e := by
  simp [spawn, startThreads]

/-- Of the engine, a step changes besides what is left open only the list of threads: by handlers of
a broadcast at its end, or by ending the run. -/
theorem Effect.engine {e' : Engine} {t' : Thread} {progress : Bool}
    (h : Effect e t dt e' t' progress) :
    (∃ e₀, e.Quiet e₀ ∧ e' = e₀.stop) ∨
    ∃ e₀ scripts, e.Quiet e₀ ∧ (scripts = [] ∨ ∃ m, scripts = e.called m) ∧
      e' = e₀.spawn scripts := by
  have still : ∀ {e₀ : Engine}, e.Quiet e₀ → ∃ e₁ scripts, e.Quiet e₁ ∧
      (scripts = [] ∨ ∃ m, scripts = e.called m) ∧ e₀ = e₁.spawn scripts :=
    fun {e₀} quiet => ⟨e₀, [], quiet, Or.inl rfl, (spawn_nil e₀).symm⟩
  cases h with
  | empty => exact Or.inr (still (.refl e))
  | closed => exact Or.inr (still (.refl e))
  | sent _ quiet => exact Or.inr ⟨_, _, quiet, Or.inr ⟨_, rfl⟩, rfl⟩
  | called _ _ _ quiet => exact Or.inr ⟨_, _, quiet, Or.inr ⟨_, rfl⟩, rfl⟩
  | halted _ quiet => exact Or.inl ⟨_, quiet, rfl⟩
  | passed _ _ quiet => exact Or.inr (still quiet)
  | entered _ _ quiet => exact Or.inr (still quiet)
  | acting _ _ _ quiet => exact Or.inr (still quiet)
  | acted _ _ quiet => exact Or.inr (still quiet)
  | unheard _ _ _ quiet => exact Or.inr (still quiet)
  | polled _ _ _ quiet => exact Or.inr (still quiet)
  | resumed _ _ _ quiet => exact Or.inr (still quiet)
  | broke _ _ quiet => exact Or.inr (still quiet)
  | continued _ _ quiet => exact Or.inr (still quiet)
  | ended _ quiet => exact Or.inr (still quiet)

end Engine

end BlockStage
