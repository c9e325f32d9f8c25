import BlockStage.Lint.UnsetVariable
import BlockStage.Proofs.Dict
import BlockStage.Proofs.Lockstep
import BlockStage.Proofs.Places
import BlockStage.Proofs.Variables

/-! # Variables that are never set

A variable that is reported as never set can be replaced by zero wherever it is read. A program and
the same program without the variable run in lockstep: commands apart, the engines are equal at all
times, and the variable is never there.
-/
namespace BlockStage

open Lint.UnsetVariable (written? commands writes readings firstReadings rule finding)

/-! ## Programs without a variable -/

def Expr.without (x : String) : Expr → Expr
  | .var name => if name = x then .num 0 else .var name
  | .bin op l r => .bin op (l.without x) (r.without x)
  | .cmp op l r => .cmp op (l.without x) (r.without x)
  | .logic op l r => .logic op (l.without x) (r.without x)
  | .num v => .num v
  | .bool b => .bool b
  | .str s => .str s
  | .unsupported => .unsupported

def Instruction.without (x : String) : Instruction → Instruction
  | .move e => .move (e.without x)
  | .turn e => .turn (e.without x)
  | .wait e => .wait (e.without x)
  | .setVar name e => .setVar name (e.without x)
  | .changeVar name e => .changeVar name (e.without x)
  | .broadcast e w => .broadcast (e.without x) w
  | .deleteVar name => .deleteVar name
  | .breakLoop => .breakLoop
  | .continueLoop => .continueLoop
  | .stopAll => .stopAll
  | .stopThis => .stopThis
  | .unsupported => .unsupported

namespace Command

mutual

def without (x : String) : Command → Command
  | .simple id i => .simple id (i.without x)
  | .repeatTimes id e body => .repeatTimes id (e.without x) (listWithout x body)
  | .forever id body => .forever id (listWithout x body)
  | .ifThen id e body => .ifThen id (e.without x) (listWithout x body)
  | .ifElse id e yes no => .ifElse id (e.without x) (listWithout x yes) (listWithout x no)

def listWithout (x : String) : List Command → List Command
  | [] => []
  | c :: cs => c.without x :: listWithout x cs

end

theorem listWithout_eq_map (x : String) (cs : List Command) :
    listWithout x cs = cs.map (without x) := by
  induction cs with
  | nil => rfl
  | cons c cs ih => rw [listWithout, ih, List.map_cons]

@[simp] theorem without_blockId (x : String) (c : Command) : (c.without x).blockId = c.blockId := by
  cases c <;> rfl

end Command

def Script.without (x : String) (s : Script) : Script :=
  { s with commands := Command.listWithout x s.commands }

/-- The program with zero in place of the variable in every expression. -/
def Program.without (x : String) (p : Program) : Program where
  scripts := p.scripts.map (Script.without x)
  handlers := p.handlers.map (List.map (Script.without x))

def Frame.without (x : String) (f : Frame) : Frame :=
  { f with commands := Command.listWithout x f.commands }

def Thread.without (x : String) (t : Thread) : Thread :=
  { t with frames := t.frames.map (Frame.without x) }

/-- The engine with zero in place of the variable in all commands that it runs or can start. -/
def Engine.without (x : String) (e : Engine) : Engine :=
  { e with program := e.program.map (Program.without x)
           threads := e.threads.map (Thread.without x) }

/-! ## The same meaning -/

namespace Expr

variable {x : String} {s : Store}

theorem eval_without (absent : s.find? x = none) (e : Expr) : (e.without x).eval s = e.eval s := by
  induction e with
  | var name =>
    by_cases same : name = x
    · have zero : finiteOrZero 0 = 0 := by unfold finiteOrZero; split <;> rfl
      subst same
      simp [without, eval, zero, Store.read, absent]
    · rw [without, if_neg same]
  | bin op l r ihl ihr => simp only [without, eval, ihl, ihr]
  | cmp op l r ihl ihr => simp only [without, eval, ihl, ihr]
  | logic op l r ihl ihr => simp only [without, eval, ihl, ihr]
  | _ => rfl

theorem evalNumber_without (absent : s.find? x = none) (e : Expr) :
    (e.without x).evalNumber s = e.evalNumber s := by
  rw [evalNumber, eval_without absent, evalNumber]

theorem evalCondition_without (absent : s.find? x = none) (e : Expr) :
    (e.without x).evalCondition s = e.evalCondition s := by
  rw [evalCondition, eval_without absent, evalCondition]

end Expr

namespace Thread

variable (x : String)

theorem without_current? (t : Thread) :
    (t.without x).current? = t.current?.map (Command.without x) := by
  obtain ⟨id, origin, frames, action, finished, waitingOn, bornTick⟩ := t
  cases frames with
  | nil => rfl
  | cons f fs => simp [current?, without, Frame.without, Frame.current?, Command.listWithout_eq_map]

theorem without_advance (t : Thread) : (t.without x).advance = t.advance.without x := by
  obtain ⟨id, origin, frames, action, finished, waitingOn, bornTick⟩ := t
  cases frames <;> rfl

theorem without_resume (t : Thread) (fs : List Frame) :
    (t.without x).resume (fs.map (Frame.without x)) = (t.resume fs).without x := by
  cases fs <;> rfl

theorem without_finishBody (t : Thread) : (t.without x).finishBody = t.finishBody.without x := by
  obtain ⟨id, origin, frames, action, finished, waitingOn, bornTick⟩ := t
  cases frames with
  | nil => rfl
  | cons f fs =>
    obtain ⟨kind, commands, ip⟩ := f
    cases kind with
    | seq => exact without_resume x _ fs
    | forever => rfl
    | counted i n =>
      simp only [finishBody, without, List.map_cons, Frame.without]
      split
      · rfl
      · exact without_resume x ⟨id, origin, _, action, finished, waitingOn, bornTick⟩ fs

theorem without_fromLoop (t : Thread) :
    (t.without x).fromLoop = t.fromLoop.map (Frame.without x) := by
  unfold fromLoop without
  induction t.frames with
  | nil => rfl
  | cons f fs ih =>
    rw [List.map_cons, List.dropWhile_cons, List.dropWhile_cons]
    have kind : (f.without x).kind = f.kind := rfl
    rw [kind]
    by_cases loop : f.kind.isLoop = true
    · simp [loop]
    · simpa [loop] using ih

end Thread

namespace Engine

variable {x : String} {e : Engine} {t : Thread} {dt : Float}

def stepWithout {α : Type} (x : String) : Engine × Thread × α → Engine × Thread × α
  | (e, t, r) => (e.without x, t.without x, r)

theorem without_isLive (id : Nat) : (e.without x).isLive id = e.isLive id := by
  simp [isLive, without, Thread.without, List.any_map, Function.comp_def]

theorem without_handlersFor (m : String) :
    (e.without x).handlersFor m = (e.handlersFor m).map (Script.without x) := by
  unfold handlersFor without
  cases e.program with
  | none => rfl
  | some p =>
    simp only [Option.map_some, Program.handlersFor, Program.without, Dict.find?_map]
    cases p.handlers.find? m <;> rfl

theorem startThreads_without (tick id : Nat) (scripts : List Script) :
    startThreads tick id (scripts.map (Script.without x)) =
      (startThreads tick id scripts).map (Thread.without x) := by
  induction scripts generalizing id with
  | nil => rfl
  | cons s scripts ih =>
    rw [List.map_cons, startThreads, startThreads, ih, List.map_cons]
    rfl

theorem without_spawn (scripts : List Script) :
    (e.without x).spawn (scripts.map (Script.without x)) = (e.spawn scripts).without x := by
  simp only [spawn, without, startThreads_without, List.map_append, List.length_map]

theorem without_assign (name : String) (v : Float) :
    (e.without x).assign name v = (e.assign name v).without x := by
  unfold assign
  split <;> rfl

theorem without_beginAction? (absent : e.store.find? x = none) (i : Instruction) :
    (e.without x).beginAction? (i.without x) = e.beginAction? i := by
  cases i <;> simp [Instruction.without, beginAction?, without, Expr.evalNumber_without absent]

theorem without_stepAction (absent : e.store.find? x = none) (i : Instruction) :
    (e.without x).stepAction (t.without x) (i.without x) dt =
      stepWithout x (e.stepAction t i dt) := by
  unfold stepAction
  rw [without_beginAction? absent]
  have action : (t.without x).action = t.action := rfl
  rw [action]
  split
  · rfl
  · dsimp only
    have tick : (e.without x).tickCount = e.tickCount := rfl
    rw [tick]
    split <;> rfl

theorem without_stepWaiting (ids : List Nat) :
    (e.without x).stepWaiting (t.without x) ids = stepWithout x (e.stepWaiting t ids) := by
  have live : (e.without x).isLive = e.isLive := funext fun _ => without_isLive _
  unfold stepWaiting
  rw [live]
  split <;> rfl

theorem without_stepBroadcast (absent : e.store.find? x = none) (m : Expr) :
    (e.without x).stepBroadcast (t.without x) (m.without x) =
      stepWithout x (e.stepBroadcast t m) := by
  have store : (e.without x).store = e.store := rfl
  have told : ∀ line, (e.without x).report line = (e.report line).without x := fun _ => rfl
  unfold stepBroadcast
  rw [store, Expr.eval_without absent]
  dsimp only
  rw [without_handlersFor, told, without_spawn]
  rfl

theorem without_stepBroadcastWait (absent : e.store.find? x = none) (m : Expr) :
    (e.without x).stepBroadcastWait (t.without x) (m.without x) =
      stepWithout x (e.stepBroadcastWait t m) := by
  have store : (e.without x).store = e.store := rfl
  have waits : (t.without x).waitingOn = t.waitingOn := rfl
  unfold stepBroadcastWait
  rw [waits, store, Expr.eval_without absent]
  split
  · exact without_stepWaiting _
  · dsimp only
    rw [without_handlersFor, startThreads_without, List.map_map]
    have told : ∀ line, (e.without x).report line = (e.report line).without x := fun _ => rfl
    rw [told, without_spawn]
    exact without_stepWaiting _

theorem without_stepBreak :
    (e.without x).stepBreak (t.without x) = stepWithout x (e.stepBreak t) := by
  unfold stepBreak
  rw [Thread.without_fromLoop]
  cases t.fromLoop with
  | nil => rfl
  | cons loop outer =>
    exact congrArg (e.without x, ·, StepResult.stay) (t.drop.without_resume x outer)

theorem without_stepContinue :
    (e.without x).stepContinue (t.without x) = stepWithout x (e.stepContinue t) := by
  unfold stepContinue
  rw [Thread.without_fromLoop]
  cases t.fromLoop with
  | nil => rfl
  | cons loop outer =>
    have length : (loop.without x).commands.length = loop.commands.length := by
      simp [Frame.without, Command.listWithout_eq_map]
    rw [List.map_cons]
    dsimp only
    rw [length]
    exact congrArg (e.without x, ·, StepResult.stay) (Thread.without_finishBody x
      { t.drop with frames := { loop with ip := loop.commands.length } :: outer })

theorem without_stepInstruction (absent : e.store.find? x = none) (i : Instruction) :
    (e.without x).stepInstruction (t.without x) (i.without x) dt =
      stepWithout x (e.stepInstruction t i dt) := by
  have store : (e.without x).store = e.store := rfl
  have told : ∀ (e : Engine) line, (e.without x).report line = (e.report line).without x :=
    fun _ _ => rfl
  cases i with
  | move _ => exact without_stepAction absent _
  | turn _ => exact without_stepAction absent _
  | wait _ => exact without_stepAction absent _
  | setVar name value =>
    simp only [stepInstruction, Instruction.without, store, Expr.evalNumber_without absent,
      without_assign, told, stepWithout]
  | changeVar name delta =>
    simp only [stepInstruction, Instruction.without, store, Expr.evalNumber_without absent,
      without_assign, told, stepWithout]
  | deleteVar name => rfl
  | broadcast m w =>
    cases w with
    | true => exact without_stepBroadcastWait absent m
    | false => exact without_stepBroadcast absent m
  | breakLoop => exact without_stepBreak
  | continueLoop => exact without_stepContinue
  | stopAll => rfl
  | stopThis => rfl
  | unsupported => rfl

theorem without_stepCommand (absent : e.store.find? x = none) (c : Command) :
    (e.without x).stepCommand (t.without x) (c.without x) dt =
      stepWithout x (e.stepCommand t c dt) := by
  have lit : (if c.blockId.isEmpty = true then e.without x
      else (e.without x).highlight (some c.blockId)) =
      (if c.blockId.isEmpty = true then e else e.highlight (some c.blockId)).without x := by
    split <;> rfl
  have store : (if c.blockId.isEmpty = true then e else e.highlight (some c.blockId)).store =
      e.store := by
    split <;> rfl
  unfold stepCommand
  dsimp only
  rw [Command.without_blockId, lit]
  generalize (if c.blockId.isEmpty = true then e else e.highlight (some c.blockId)) = e₀
    at store ⊢
  rw [← store] at absent
  have same : (e₀.without x).store = e₀.store := rfl
  cases c with
  | simple id i => exact without_stepInstruction absent i
  | repeatTimes id times body =>
    dsimp only [Command.without]
    rw [same, Expr.evalNumber_without absent]
    split <;> rfl
  | forever id body => rfl
  | ifThen id cond body =>
    dsimp only [Command.without]
    rw [same, Expr.evalCondition_without absent]
    split <;> rfl
  | ifElse id cond yes no =>
    dsimp only [Command.without]
    rw [same, Expr.evalCondition_without absent]
    split <;> rfl

theorem without_settle (r : Engine × Thread × StepResult) :
    settle (stepWithout x r) = stepWithout x (settle r) := by
  obtain ⟨e, t, result⟩ := r
  cases result with
  | advance => exact congrArg (e.without x, ·, true) (t.without_advance x)
  | stay => rfl
  | pending => rfl

/-- A step is the same without the variable, as long as the variable is not there. -/
theorem without_stepThread (absent : e.store.find? x = none) :
    (e.without x).stepThread (t.without x) dt = stepWithout x (e.stepThread t dt) := by
  cases cur : t.current? with
  | some c =>
    have cur' : (t.without x).current? = some (c.without x) := by
      rw [Thread.without_current?, cur, Option.map_some]
    rw [stepThread_current cur', stepThread_current cur, without_stepCommand absent,
      without_settle]
  | none =>
    have cur' : (t.without x).current? = none := by
      rw [Thread.without_current?, cur, Option.map_none]
    rw [stepThread_spent cur', stepThread_spent cur, Thread.without_finishBody]
    rfl

theorem without_stepAt (absent : e.store.find? x = none) (i : Nat) :
    (e.without x).stepAt i (t.without x) dt = (e.stepAt i t dt).without x := by
  unfold stepAt
  rw [without_stepThread absent]
  generalize e.stepThread t dt = done
  obtain ⟨e', t', progress⟩ := done
  dsimp only [stepWithout]
  have running : (e'.without x).running = e'.running := rfl
  rw [running]
  split
  · simp [without, List.map_set]
  · rfl

theorem without_liveThreads (e : Engine) :
    (e.without x).liveThreads = e.liveThreads.map (Thread.without x) := by
  unfold liveThreads without
  rw [List.filter_map]
  rfl

theorem without_beginTick (e : Engine) (now : Nat) :
    (e.without x).beginTick now = (e.beginTick now).without x := by
  unfold beginTick
  dsimp only
  have window : (e.without x).windowStart = e.windowStart := rfl
  rw [window]
  split <;> rfl

theorem without_start (e : Engine) (now : Nat) :
    (e.without x).start now = (e.start now).without x := by
  unfold start
  cases hp : e.program with
  | none => simp [without, hp, report]
  | some p =>
    cases hs : e.sprite with
    | none => simp [without, hp, hs, report]
    | some actor =>
      have program : (e.without x).program = some (p.without x) := by simp [without, hp]
      have sprite : (e.without x).sprite = some actor := hs
      have scripts : (p.without x).scripts = p.scripts.map (Script.without x) := rfl
      rw [program, sprite]
      dsimp only
      rw [scripts, List.isEmpty_map]
      split
      · rfl
      · simp [spawn, without, startThreads_without, report]

theorem without_sameView (e : Engine) : e.SameView (e.without x) where
  limits := rfl
  running := rfl
  pending := rfl
  tickCount := rfl
  lastTick := rfl
  opsThisSecond := rfl
  threads := by simp [without, Thread.without, Thread.standing, Function.comp_def]

end Engine

/-! ## Variables that nothing writes -/

theorem Stack.exists_root {Root : List Command → Prop} {frames : List Frame}
    (h : Stack Root frames) : ∃ root, Root root ∧ ∀ f fs, frames = f :: fs →
      Command.preorderList f.commands ⊆ Command.preorderList root := by
  induction h with
  | @root f _ commands =>
    refine ⟨f.commands, commands, fun g gs top => ?_⟩
    obtain rfl := (List.cons.inj top).1
    exact fun _ hc => hc
  | push carries _ ih =>
    obtain ⟨root, isRoot, below⟩ := ih
    refine ⟨root, isRoot, fun g gs top => ?_⟩
    obtain rfl := (List.cons.inj top).1
    obtain ⟨d, cur, opens⟩ := carries
    obtain ⟨n, body⟩ := opens.body
    intro c hc
    have inside : c ∈ d.preorder := Command.mem_preorder_of_body (List.mem_of_getElem? body) hc
    exact below _ _ rfl (Command.mem_preorderList (List.mem_of_getElem? cur) inside)

theorem Engine.Controlled.mem_commands {p : Program} {e : Engine} {t : Thread} {c : Command}
    (h : e.Controlled (· = p)) (ht : t ∈ e.threads) (cur : t.current? = some c) :
    c ∈ commands p := by
  obtain ⟨f, fs, top, here⟩ := Thread.frames_of_current cur
  have stack := (h.threads t ht).stack (by rw [top]; exact List.cons_ne_nil f fs)
  obtain ⟨_, ⟨_, rfl, s, root, rfl⟩, below⟩ := stack.exists_root
  have inside := Command.mem_preorderList (List.mem_of_getElem? here) c.self_mem_preorder
  exact List.mem_flatMap.mpr ⟨s, root, below f fs top inside⟩

namespace Lint.UnsetVariable

variable {p : Program} {x : String}

/-- The rule reports the variable. -/
def Reports (p : Program) (x : String) : Prop :=
  ∃ f ∈ rule.check p, f.message = "variable '" ++ x ++ "' is never set and always reads as 0"

theorem mem_firstReadings {known : List String} {rs : List (String × String)}
    {r : String × String} (h : r ∈ firstReadings known rs) : r.1 ∉ known := by
  induction rs generalizing known with
  | nil => cases h
  | cons first rs ih =>
    unfold firstReadings at h
    split at h
    · exact ih h
    next new =>
      rcases List.mem_cons.mp h with rfl | later
      · simpa using new
      · exact fun mem => ih later (List.mem_cons_of_mem _ mem)

theorem not_mem_writes (h : Reports p x) : x ∉ writes p := by
  obtain ⟨f, found, message⟩ := h
  obtain ⟨r, reading, rfl⟩ := List.mem_map.mp found
  have name : r.1 = x := by
    have chars := congrArg String.toList message
    exact String.toList_inj.mp (by simpa [finding] using chars)
  exact name ▸ mem_firstReadings reading

end Lint.UnsetVariable

namespace Engine

/-- The second engine is the first one without the variable, which neither of them holds. -/
structure Without (p : Program) (x : String) (h : List Visit) (e e' : Engine) : Prop where
  same : e' = e.without x
  controlled : e.Controlled (· = p)
  absent : e.store.find? x = none
  always : ∀ v ∈ h, v.engine.store.find? x = none

theorem Stores.absent {e : Engine} {t : Thread} {s : Store} {x : String} (h : e.Stores t s)
    (absent : e.store.find? x = none) (spared : ∀ c, t.current? = some c → written? c ≠ some x) :
    s.find? x = none := by
  have other : ∀ name v, name ≠ x → (Structured.written e.store name v).find? x = none := by
    intro name v differs
    unfold Structured.written
    split
    · exact absent
    · rw [Dict.find?_insert_ne _ (Ne.symm differs), absent]
  cases h with
  | kept => exact absent
  | set cur => exact other _ _ fun same => spared _ cur (congrArg some same)
  | changed cur => exact other _ _ fun same => spared _ cur (congrArg some same)
  | @deleted _ name cur =>
    by_cases same : x = name
    · rw [same, Dict.find?_erase_self]
    · rw [Dict.find?_erase_ne _ same, absent]

theorem Without.lockstep {p : Program} {x : String} (unwritten : x ∉ writes p) :
    Lockstep (Without p x) where
  view := by
    rintro h e _ ⟨rfl, _, _, _⟩
    exact e.without_sameView
  begins := by
    rintro h e _ now ⟨rfl, controlled, absent, always⟩
    refine ⟨e.without_beginTick now, ?_, by simpa using absent, always⟩
    refine ⟨fun q hq => controlled.program q (by simpa using hq), fun t ht => ?_⟩
    rw [beginTick_tickCount]
    exact (controlled.threads t (by simpa using ht)).mono (Nat.le_succ _)
  prunes := by
    rintro h e _ ⟨rfl, controlled, absent, always⟩
    refine ⟨?_, ⟨controlled.program, fun t ht => ?_⟩, absent, always⟩
    · rw [without_liveThreads]
      rfl
    · exact controlled.threads t (List.mem_of_mem_filter ht)
  counts := by
    rintro h e _ ⟨rfl, controlled, absent, always⟩
    exact ⟨rfl, ⟨controlled.program, controlled.threads⟩, absent, always⟩
  requests := by
    rintro h e _ ⟨rfl, controlled, absent, always⟩
    exact ⟨rfl, ⟨controlled.program, controlled.threads⟩, absent, always⟩
  ends := by
    rintro h e _ line ⟨rfl, controlled, absent, always⟩
    exact ⟨rfl, ⟨controlled.program, fun t ht => by cases ht⟩, absent, always⟩
  steps := by
    rintro h _ v t' due ⟨rfl, controlled, absent, always⟩ listed'
    have thread : t' = v.thread.without x := by
      have listed := congrArg (Option.map (Thread.without x)) due.listed
      rw [← List.getElem?_map] at listed
      exact Option.some.inj (listed'.symm.trans listed)
    subst thread
    refine ⟨?_, without_stepAt absent _, controlled.after due, ?_, ?_⟩
    · rw [without_stepThread absent, due.progress]
      rfl
    · refine v.after_stores.absent absent fun c cur writes => unwritten ?_
      exact List.mem_filterMap.mpr ⟨c, controlled.mem_commands due.mem cur, writes⟩
    · intro w hw
      rcases List.mem_append.mp hw with earlier | now
      · exact always w earlier
      · rw [List.mem_singleton.mp now]
        exact absent

theorem Without.perform {p : Program} {x : String} {h : List Visit} {e e' : Engine}
    (related : Without p x h e e') (op : Operation) (noLoad : ∀ q, op ≠ .load q)
    (noTick : ∀ now, op ≠ .tick now) : Without p x h (e.perform op) (e'.perform op) := by
  obtain ⟨rfl, controlled, absent, always⟩ := related
  cases op with
  | load q => exact absurd rfl (noLoad q)
  | tick now => exact absurd rfl (noTick now)
  | bind actor => exact ⟨rfl, ⟨controlled.program, controlled.threads⟩, absent, always⟩
  | start now =>
    refine ⟨e.without_start now, controlled.start now, ?_, always⟩
    rw [Engine.perform, start_store, absent]
  | stop => exact ⟨rfl, ⟨controlled.program, fun t ht => by cases ht⟩, absent, always⟩

theorem Without.loaded {e : Engine} {p : Program} {x : String} (idle : e.threads = [])
    (absent : e.store.find? x = none) : Without p x [] (e.load p) (e.load (p.without x)) := by
  refine ⟨?_, ⟨fun q hq => ?_, fun t ht => ?_⟩, absent, by simp⟩
  · simp [load, without, idle]
  · exact (Option.some.inj hq).symm
  · rw [load, idle] at ht
    cases ht

theorem load_start_fresh {e : Engine} {p : Program} (bound : e.sprite ≠ none)
    (some : p.scripts ≠ []) (now : Nat) :
    (e.load p).start now = (({ e with threads := [] } : Engine).load p).start now := by
  obtain ⟨actor, hs⟩ := Option.ne_none_iff_exists'.mp bound
  have scripts : ¬ p.scripts.isEmpty = true := by simpa using some
  simp [start, load, hs, scripts]

end Engine

/-- Take a program for which a variable is reported as never set, and the same program with zero in
its place in every expression. Started on engines that are equal and do not hold the variable, they
stay equal but for that replacement, whatever the host does short of loading another program: the
same outcomes, signals, variables, actor and counters, and the same threads with their commands
replaced. At no time does a store hold the variable. An engine whose threads are left over from
another program has to be started for good: with an actor and a script. -/
theorem unset_variable_reads_zero {p : Program} {x : String} {e : Engine}
    (reported : Lint.UnsetVariable.Reports p x) (absent : e.store.find? x = none)
    (left : e.threads = [] ∨ e.sprite ≠ none ∧ p.scripts ≠ []) (now : Nat)
    (ops : List Engine.Operation) (noLoad : ∀ q, .load q ∉ ops) :
    let run := (e.load p).start now
    let run' := (e.load (p.without x)).start now
    run'.performAll ops = (run.performAll ops).without x ∧
    run'.outcomes ops = run.outcomes ops ∧
    (run.performAll ops).store.find? x = none ∧
    ∀ v ∈ run.history ops, v.engine.store.find? x = none := by
  intro run run'
  have begun : Engine.Without p x [] run run' := by
    rcases left with idle | ⟨bound, scripts⟩
    · exact (Engine.Without.loaded idle absent).perform (.start now) (by simp) (by simp)
    · have scripts' : (p.without x).scripts ≠ [] := by simpa [Program.without] using scripts
      change Engine.Without p x [] ((e.load p).start now) ((e.load (p.without x)).start now)
      rw [Engine.load_start_fresh bound scripts, Engine.load_start_fresh bound scripts']
      have idle : ({ e with threads := [] } : Engine).threads = [] := rfl
      exact (Engine.Without.loaded idle absent).perform (.start now) (by simp) (by simp)
  have lockstep := Engine.Without.lockstep (Lint.UnsetVariable.not_mem_writes reported)
  have others : ∀ {h e e'} op, op ∈ ops → (∀ now, op ≠ .tick now) →
      Engine.Without p x h e e' → Engine.Without p x h (e.perform op) (e'.perform op) :=
    fun op mem noTick related => related.perform op (fun q same => noLoad q (same ▸ mem)) noTick
  obtain ⟨kept, outcomes⟩ := Engine.performAll_beside lockstep others begun
  exact ⟨kept.same, outcomes, kept.absent, by simpa using kept.always⟩

/-- Reads a variable in a motion, in a message and in a handler, and never sets it. -/
def Program.unsetSpeed : Program where
  scripts := [⟨"main", [.repeatTimes "loop" (.num 2) [.simple "go" (.move (.var "speed")),
    .simple "tell" (.broadcast (.var "speed") true)]]⟩]
  handlers := .ofList [("0", [⟨"heard", [.ifThen "if" (.cmp .eq (.var "speed") (.num 0))
    [.simple "note" (.setVar "seen" (.bin .add (.var "speed") (.var "seen")))],
    .simple "drop" (.deleteVar "speed")]⟩])]

theorem unset_variable_reads_zero_speed :
    let e : Engine := { sprite := some {} }
    let ops : List Engine.Operation :=
      [.tick 50000000, .tick 100000000, .tick 150000000, .stop, .start 200000000, .tick 250000000]
    let run := (e.load .unsetSpeed).start 0
    let run' := (e.load (Program.unsetSpeed.without "speed")).start 0
    Lint.UnsetVariable.Reports .unsetSpeed "speed" ∧ e.store.find? "speed" = none ∧
    (∀ q, .load q ∉ ops) ∧
    run'.performAll ops = (run.performAll ops).without "speed" ∧
    run'.outcomes ops = run.outcomes ops ∧
    (run.performAll ops).store.find? "speed" = none ∧
    ∀ v ∈ run.history ops, v.engine.store.find? "speed" = none := by
  intro e ops run run'
  have reported : Lint.UnsetVariable.Reports .unsetSpeed "speed" := by
    unfold Lint.UnsetVariable.Reports
    decide
  have noLoad : ∀ q, .load q ∉ ops := by simp [ops]
  exact ⟨reported, rfl, noLoad,
    unset_variable_reads_zero reported rfl (Or.inl rfl) 0 ops noLoad⟩

end BlockStage
