import BlockStage.Proofs.Independence.Solo
import BlockStage.Proofs.Structured.Lone
import BlockStage.Proofs.Waiting

/-! # Threads that track a script by itself

A thread of an engine tracks a script by itself: it stands at the same place, the variables of the
script have the same values, and the actor is on the way to where the script takes it. A step of the
thread leaves the script where it is or takes one step of it, and it stays within the variables of
the script.
-/
namespace BlockStage

open Structured (pass Fiber)
open Lint.UnsetVariable (reads)

section Commands

variable {s : Script} {f : Frame} {fs frames : List Frame} {t : Thread} {tick : Nat} {c : Command}

theorem Stack.preorder_subset (h : Stack (· = s.commands) frames) (top : frames = f :: fs) :
    Command.preorderList f.commands ⊆ s.allCommands := by
  induction h generalizing f fs with
  | root _ commands =>
    obtain rfl := (List.cons.inj top).1
    rw [commands]
    exact fun _ hc => hc
  | push carries _ ih =>
    obtain rfl := (List.cons.inj top).1
    obtain ⟨d, cur, opens⟩ := carries
    obtain ⟨n, body⟩ := opens.body
    intro c hc
    have inside : c ∈ d.preorder := Command.mem_preorder_of_body (List.mem_of_getElem? body) hc
    exact ih rfl (Command.mem_preorderList (List.mem_of_getElem? cur) inside)

theorem Thread.Controlled.mem_allCommands (h : t.Controlled (· = s.commands) tick)
    (cur : t.current? = some c) : c ∈ s.allCommands := by
  obtain ⟨f, fs, top, here⟩ := Thread.frames_of_current cur
  have stack := h.stack (by rw [top]; exact List.cons_ne_nil f fs)
  exact stack.preorder_subset top
    (Command.mem_preorderList (List.mem_of_getElem? here) c.self_mem_preorder)

theorem Script.uses_of_mem (mem : c ∈ s.allCommands) : c.uses ⊆ s.uses :=
  fun _ hn => List.mem_flatMap.mpr ⟨c, mem, hn⟩

theorem Script.not_motion_of_mem (still : s.moves = false) (mem : c ∈ s.allCommands) :
    c.isMotion = false := by
  have none := List.any_eq_false.mp still c mem
  simpa using none

end Commands

namespace Thread

@[simp] theorem advance_action (t : Thread) : t.advance.action = t.action := by
  unfold advance
  split <;> rfl

theorem eq_plain {t : Thread} (unfinished : t.finished = false) (busy : t.frames ≠ [])
    (action : t.action = none) (waiting : t.waitingOn = none) : t = t.plain t.frames := by
  obtain ⟨_, _, frames, _, _, _, _⟩ := t
  cases frames with
  | nil => exact absurd rfl busy
  | cons f fs => simp_all [plain]

end Thread

/-- The actor is where the script has it, or on the way of the motion that is in flight. -/
def Solo.Poses (x : Solo) : Option Action → Sprite → Prop
  | none, s => s = x.sprite
  | some a, s => a.motion = x.aim ∧ ∃ p, s = x.aim.carry p x.sprite

theorem Solo.aim_of_current {x : Solo} {id : String} {i : Instruction}
    (cur : x.fiber.current? = some (.simple id i)) :
    x.aim = i.motion x.fiber.store x.sprite := by
  simp [aim, cur]

theorem Solo.aim_eq_wait {x : Solo}
    (untimed : ∀ id i, x.fiber.current? = some (.simple id i) → i.isTimed = false) :
    x.aim = .wait := by
  unfold aim
  split
  next id i cur =>
    have other := untimed id i cur
    cases i <;> first | rfl | cases other
  · rfl

theorem Agree.motion {names : List String} {s s' : Store} {id : String} {i : Instruction}
    (h : Agree names s s') (sub : (Command.simple id i).uses ⊆ names) (a : Sprite) :
    i.motion s a = i.motion s' a := by
  have operand : ∀ {e : Expr}, i.operand? = some e → Agree (reads e) s s' := by
    intro e he
    apply h.mono
    intro n hn
    exact sub (List.mem_append_right _ (by simpa [Command.operand?, he] using hn))
  cases i with
  | move steps => simp only [Instruction.motion, (operand rfl).evalNumber]
  | turn degrees => simp only [Instruction.motion, (operand rfl).evalNumber]
  | _ => rfl

namespace Engine

/-- What a thread on the given frames consists of. -/
def fiber (e : Engine) (frames : List Frame) : Fiber := ⟨e.store, e.signals, frames, false⟩

structure Tracks (e : Engine) (s : Script) (frames : List Frame) (action : Option Action)
    (x : Solo) : Prop where
  alike : Fiber.Alike s.uses (e.fiber frames) x.fiber
  poses : s.moves = true → ∃ a, e.sprite = some a ∧ x.Poses action a

structure Runs (e : Engine) (s : Script) (t : Thread) (x : Solo) : Prop where
  controlled : t.Controlled (· = s.commands) e.tickCount
  idle : t.waitingOn = none
  tracks : e.Tracks s t.frames t.action x

/-- The engines differ only in what the script may change. -/
structure Within (s : Script) (e e' : Engine) : Prop where
  quiet : e.Quiet e'
  store : ∀ names, s.uses.Disjoint names → Agree names e'.store e.store
  actor : s.moves = false → e'.sprite = e.sprite
  bound : e.sprite.isSome = true → e'.sprite.isSome = true

/-- What a step comes to for the script: nothing, or a step of its own. -/
structure Advances (e : Engine) (s : Script) (x : Solo) (r : Engine × Thread × Bool) : Prop where
  within : Within s e r.1
  idle : r.2.1.waitingOn = none
  tracks : ∃ x', (x' = x ∨ x' = x.step) ∧ r.1.Tracks s r.2.1.frames r.2.1.action x'

variable {s : Script} {e e' : Engine} {t : Thread} {x : Solo} {dt : Float} {a : Sprite}
  {id : String} {i : Instruction}

theorem Tracks.unhalted {frames : List Frame} {action : Option Action}
    (h : e.Tracks s frames action x) : x.fiber.halted = false :=
  h.alike.halted.symm

theorem Runs.current (h : e.Runs s t x) : x.fiber.current? = t.current? := by
  rw [Fiber.current?, ← h.tracks.alike.frames]
  rfl

/-- What a script does not use, others may change. -/
theorem Tracks.frame {frames : List Frame} {action : Option Action}
    (h : e.Tracks s frames action x) (store : Agree s.uses e'.store e.store)
    (actor : s.moves = true → e'.sprite = e.sprite) : e'.Tracks s frames action x := by
  refine ⟨⟨h.alike.frames, h.alike.halted, fun n hn => ?_⟩, fun moves => ?_⟩
  · exact (store n hn).trans (h.alike.store n hn)
  · rw [actor moves]
    exact h.poses moves

theorem Within.of_same (quiet : e.Quiet e') (store : e'.store = e.store)
    (actor : e'.sprite = e.sprite) : Within s e e' :=
  ⟨quiet, fun _ _ _ _ => by rw [store], fun _ => actor, fun bound => actor ▸ bound⟩

theorem Runs.alike_pass (h : e.Runs s t x) (cur : t.current? = some (.simple id i))
    (other : i.isSequential = false) (same : e'.store = e.store) :
    Fiber.Alike s.uses (e'.fiber (pass t.frames)) x.step.fiber := by
  obtain ⟨frames, halted, store⟩ :=
    Fiber.step_of_not_sequential h.tracks.unhalted (h.current.trans cur) other
  refine ⟨?_, halted.symm, ?_⟩
  · exact (congrArg pass h.tracks.alike.frames).trans frames.symm
  · intro n hn
    change e'.store.find? n = x.fiber.step.store.find? n
    rw [same, store]
    exact h.tracks.alike.store n hn

/-! ## Steps at commands that take no time -/

theorem Runs.step_sequential (h : e.Runs s t x) (unfinished : t.finished = false)
    (unstopped : ∀ c ∈ s.allCommands, c.isStopAll = false)
    (seq : ∀ c, t.current? = some c → c.isSequential = true) :
    e.Advances s x (e.stepThread t dt) := by
  have untimed : ∀ id i, t.current? = some (.simple id i) → i.isTimed = false := by
    intro id i cur
    have other := seq _ cur
    cases i <;> first | rfl | cases other
  have busy := h.controlled.frames_ne_nil unfinished
  have action := h.controlled.no_action untimed
  obtain ⟨f, fs, top⟩ := List.exists_cons_of_ne_nil busy
  let y := e.fiber t.frames
  have commands : ∀ c, y.current? = some c → c ∈ s.allCommands :=
    fun c cur => h.controlled.mem_allCommands cur
  have running : y.step.halted = false :=
    Fiber.step_halted rfl fun c cur => unstopped c (commands c cur)
  have step : e.stepThread t dt = (e.holding y.step, t.plain y.step.frames, true) := by
    have plain := stepThread_plain e t dt (x := y) top rfl
      fun c cur => seq c ((Thread.current_eq top).trans cur)
    rw [← top, ← Thread.eq_plain unfinished busy action h.idle, landed, if_neg (by simp [running])]
      at plain
    exact plain
  rw [step]
  refine ⟨⟨⟨_, _, _, rfl⟩, ?_, fun _ => rfl, fun bound => bound⟩, rfl, x.step, Or.inr rfl, ?_, ?_⟩
  · intro names apart
    refine Fiber.step_store (x := y) rfl fun c cur n used => ?_
    exact apart (Script.uses_of_mem (commands c cur) used)
  · have alike := h.tracks.alike.step fun c cur => Script.uses_of_mem (commands c cur)
    exact ⟨alike.frames, running.symm.trans alike.halted, alike.store⟩
  · intro moves
    obtain ⟨a, actor, poses⟩ := h.tracks.poses moves
    rw [action] at poses
    have aim : x.aim = .wait := Solo.aim_eq_wait fun id i cur => untimed id i (h.current ▸ cur)
    refine ⟨a, actor, ?_⟩
    change a = x.aim.carry 1 x.sprite
    rw [aim]
    exact poses

theorem stepThread_unheard {m : Expr} {wait : Bool}
    (cur : t.current? = some (.simple id (.broadcast m wait))) (idle : t.waitingOn = none)
    (unheard : e.called m = []) (dt : Float) : ∃ line,
      e.stepThread t dt = ((e.lit id).report line, t.advance, true) := by
  obtain ⟨quiet, same, _⟩ := e.lit_quiet id
  have handlers : (e.lit id).handlersFor (m.eval (e.lit id).store).display = [] := by
    rw [handlersFor, same, quiet.program]
    exact unheard
  rw [stepThread_current cur]
  change ∃ line, settle ((e.lit id).stepInstruction t (.broadcast m wait) dt) = _
  cases wait with
  | false =>
    simp only [stepInstruction, stepBroadcast, handlers, spawn_nil, settle, Bool.false_eq_true,
      if_false]
    exact ⟨_, rfl⟩
  | true =>
    have same : { t with waitingOn := none } = t := by cases t; simp_all
    simp only [stepInstruction, stepBroadcastWait, idle, handlers, spawn_nil, startThreads,
      List.map_nil, stepWaiting, List.any_nil, Bool.false_eq_true, if_false, same, settle, if_true]
    exact ⟨_, rfl⟩

theorem Runs.step_broadcast (h : e.Runs s t x) {m : Expr} {wait : Bool}
    (cur : t.current? = some (.simple id (.broadcast m wait))) (unheard : e.called m = []) :
    e.Advances s x (e.stepThread t dt) := by
  have untimed : ∀ id' i, t.current? = some (.simple id' i) → i.isTimed = false := by
    intro id' i cur'
    obtain ⟨_, rfl⟩ := Command.simple.inj (Option.some.inj (cur.symm.trans cur'))
    rfl
  have action := h.controlled.no_action untimed
  obtain ⟨quiet, same, actor⟩ := e.lit_quiet id
  obtain ⟨line, step⟩ := stepThread_unheard cur h.idle unheard dt
  rw [step]
  refine ⟨.of_same (quiet.trans (report_quiet _ line)) same actor, by simpa using h.idle, x.step,
    Or.inr rfl, ?_, ?_⟩
  · rw [Thread.advance_frames]
    exact h.alike_pass cur rfl same
  · intro moves
    obtain ⟨a, bound, poses⟩ := h.tracks.poses moves
    have aim : x.aim = .wait := Solo.aim_eq_wait fun id i cur => untimed id i (h.current ▸ cur)
    refine ⟨a, actor.trans bound, ?_⟩
    rw [action] at poses
    simpa [action, Solo.Poses, Solo.step, aim, Motion.carry] using poses

/-! ## Steps at timed instructions -/

theorem Runs.aim_of_moves (h : e.Runs s t x) (cur : t.current? = some (.simple id i))
    (same : e'.store = e.store) (poses : x.Poses t.action a) :
    e'.aim t i a = x.aim ∧ ∀ q, x.aim.carry q a = x.aim.carry q x.sprite := by
  have sub := Script.uses_of_mem (h.controlled.mem_allCommands cur)
  have aims := Solo.aim_of_current (h.current.trans cur)
  unfold aim
  cases flying : t.action with
  | none =>
    rw [flying] at poses
    obtain rfl : a = x.sprite := poses
    have motion : i.motion e'.store x.sprite = x.aim := by
      rw [same, aims]
      exact h.tracks.alike.store.motion sub x.sprite
    exact ⟨motion, fun _ => rfl⟩
  | some b =>
    rw [flying] at poses
    obtain ⟨motion, p, rfl⟩ := poses
    exact ⟨motion, fun q => Motion.carry_carry ..⟩

theorem Runs.aim_of_still (h : e.Runs s t x) (cur : t.current? = some (.simple id i))
    (timed : i.isTimed = true) (still : s.moves = false) : e'.aim t i a = .wait := by
  have other := Script.not_motion_of_mem still (h.controlled.mem_allCommands cur)
  cases i with
  | wait seconds =>
    unfold aim
    cases flying : t.action with
    | none => rfl
    | some b =>
      obtain ⟨id', i, cur', performs, _⟩ := h.controlled.action b flying
      obtain ⟨_, rfl⟩ := Command.simple.inj (Option.some.inj (cur.symm.trans cur'))
      cases motion : b.motion with
      | wait => rw [Option.map_some, Option.getD_some, motion]
      | _ => rw [motion] at performs; cases performs
  | move _ => cases other
  | turn _ => cases other
  | _ => cases timed

theorem Runs.step_timed (h : e.Runs s t x) (cur : t.current? = some (.simple id i))
    (timed : i.isTimed = true) (actor : e.sprite = some a) :
    e.Advances s x (e.stepThread t dt) := by
  have other : i.isSequential = false := by cases i <;> first | rfl | cases timed
  obtain ⟨quiet, same, bound⟩ := e.lit_quiet id
  let m := (e.lit id).aim t i a
  have within : ∀ q, Within s e { e.lit id with sprite := some (m.carry q a) } := by
    intro q
    refine ⟨quiet.trans ⟨_, _, _, rfl⟩, fun _ _ _ _ => by rw [same], fun still => ?_, fun _ => rfl⟩
    have waits : m = .wait := h.aim_of_still cur timed still
    simp only [waits, actor]
    rfl
  -- the actor comes to where the script itself has it after this part of the motion
  have comes : s.moves = true → m = x.aim ∧ ∀ q, m.carry q a = x.aim.carry q x.sprite := by
    intro moves
    obtain ⟨b, bound', poses⟩ := h.tracks.poses moves
    obtain rfl : a = b := Option.some.inj (actor.symm.trans bound')
    obtain ⟨aims, carries⟩ := h.aim_of_moves cur same poses
    exact ⟨aims, fun q => by rw [← carries q, ← aims]⟩
  rw [stepThread_current cur]
  change e.Advances s x (settle ((e.lit id).stepInstruction t i dt))
  have acts : (e.lit id).stepInstruction t i dt = (e.lit id).stepAction t i dt := by
    cases i <;> first | rfl | cases timed
  rw [acts]
  rcases stepAction_cases (t := t) timed (bound.trans actor) dt with ⟨b, p, aims, acting⟩ | acted
  · rw [acting]
    refine ⟨within p, h.idle, x, Or.inl rfl, ?_, fun moves => ?_⟩
    · refine ⟨h.tracks.alike.frames, h.tracks.alike.halted, fun n hn => ?_⟩
      change (e.lit id).store.find? n = x.fiber.store.find? n
      rw [same]
      exact h.tracks.alike.store n hn
    · obtain ⟨aimed, carries⟩ := comes moves
      exact ⟨_, rfl, aims.trans aimed, p, carries p⟩
  · rw [acted]
    refine ⟨within 1, ?_, x.step, Or.inr rfl, ?_, fun moves => ?_⟩
    · simpa [settle] using h.idle
    · rw [settle, Thread.advance_frames]
      exact h.alike_pass cur other same
    · obtain ⟨_, carries⟩ := comes moves
      refine ⟨_, rfl, ?_⟩
      rw [settle, Thread.advance_action]
      exact carries 1

theorem Runs.step (h : e.Runs s t x) (unfinished : t.finished = false)
    (unstopped : ∀ c ∈ s.allCommands, c.isStopAll = false) (unheard : ∀ m, e.called m = [])
    (actor : e.sprite = some a) (dt : Float) : e.Advances s x (e.stepThread t dt) := by
  by_cases seq : ∀ c, t.current? = some c → c.isSequential = true
  · exact h.step_sequential unfinished unstopped seq
  · simp only [not_forall, Bool.not_eq_true] at seq
    obtain ⟨c, cur, other⟩ := seq
    cases c with
    | simple id i =>
      cases i with
      | broadcast m wait => exact h.step_broadcast cur (unheard m)
      | move steps => exact h.step_timed cur rfl actor
      | turn degrees => exact h.step_timed cur rfl actor
      | wait seconds => exact h.step_timed cur rfl actor
      | _ => cases other
    | _ => cases other

end Engine

end BlockStage
