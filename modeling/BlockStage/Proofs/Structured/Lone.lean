import BlockStage.Proofs.Run
import BlockStage.Proofs.Structured.Fiber

/-! # Lone threads

An engine with a single thread of sequential commands does what the fiber of the thread does, step
by step; a tick takes as many of these steps as it is allowed to, unless the fiber ends before.
-/
namespace BlockStage

open Structured

namespace Thread

/-- The thread on the given frames, with nothing else going on; it is finished when none is left. -/
def plain (t : Thread) (frames : List Frame) : Thread where
  id := t.id
  origin := t.origin
  frames := frames
  finished := frames.isEmpty
  bornTick := t.bornTick

variable {t : Thread} {f : Frame} {fs : List Frame}

theorem plain_resume (frames : List Frame) :
    (t.plain (f :: fs)).resume frames = t.plain (pass frames) := by
  cases frames <;> rfl

theorem plain_finishBody : (t.plain (f :: fs)).finishBody = t.plain (close (f :: fs)) := by
  have resumes : (t.plain (f :: fs)).resume fs = t.plain (pass fs) := plain_resume fs
  simp only [finishBody, close, plain] at resumes ⊢
  cases f.kind with
  | seq => exact resumes
  | forever => rfl
  | counted i n =>
    dsimp only
    split
    · rfl
    · exact resumes

end Thread

namespace Engine

/-- The engine with the store and the signals of a fiber. -/
def holding (e : Engine) (x : Fiber) : Engine := { e with store := x.store, signals := x.told }

/-- What a step of the thread on the given frames gives, when it leads the fiber to the state. -/
def landed (e : Engine) (t : Thread) (frames : List Frame) (x : Fiber) : Engine × Thread × Bool :=
  if x.halted then ((e.holding x).stop, t.plain frames, true)
  else (e.holding x, t.plain x.frames, true)

variable {e : Engine} {t : Thread} {x : Fiber} {f : Frame} {fs : List Frame} {dt : Float}

theorem holding_assign (e : Engine) (x : Fiber) (name : String) (v : Float) :
    (e.holding x).assign name v = e.holding { x with store := written x.store name v } := by
  unfold assign written
  split <;> rfl

theorem holding_highlight (e : Engine) (x : Fiber) (c : Command) :
    (if c.blockId.isEmpty then e.holding x else (e.holding x).highlight (some c.blockId)) =
      e.holding (x.tell (shown c.blockId)) := by
  unfold shown
  split <;> rfl

theorem landed_enter (frames : x.frames = f :: fs) (running : x.halted = false) (kind : FrameKind)
    (body : List Command) : e.landed t (f :: fs) (x.enter kind body) =
      (e.holding x, (t.plain (f :: fs)).enter kind body, true) := by
  simp only [landed, Fiber.enter, frames, running]
  rfl

theorem landed_normal (frames : x.frames = f :: fs) : e.landed t (f :: fs) (x.leave .normal) =
    (e.holding x, (t.plain (f :: fs)).advance, true) := by
  simp only [landed, Fiber.leave, frames, leave]
  rfl

section Exits

variable {s : Store} {σ : List Signal} {id : String}

theorem stepBreak_plain :
    settle ((e.holding ⟨s, σ, f :: fs, false⟩).stepBreak (t.plain (f :: fs))) =
      e.landed t (f :: fs) (Fiber.begin ⟨s, σ, f :: fs, false⟩ (.simple id .breakLoop)) := by
  have loops : (t.plain (f :: fs)).fromLoop = fromLoop (f :: fs) := rfl
  simp only [stepBreak, loops]
  cases inside : fromLoop (f :: fs) with
  | nil =>
    have act : instruct (inLoop (f :: fs)) s .breakLoop =
        (.normal, s, [.log "break: no loop to break."]) := by
      simp [instruct, fromLoop_eq_nil_iff.mp inside]
    rw [Fiber.begin_simple act]
    rfl
  | cons loop outer =>
    have act : instruct (inLoop (f :: fs)) s .breakLoop = (.broken, s, []) := by
      simp [instruct, inLoop_of_fromLoop inside]
    have leaves : leave .broken (f :: fs) = pass outer := by simp [leave, inside]
    have resumes : (t.plain (f :: fs)).drop.resume outer = t.plain (pass outer) :=
      Thread.plain_resume outer
    rw [Fiber.begin_simple act]
    simp only [landed, Fiber.leave, Fiber.tell, leaves, settle, resumes]
    rfl

theorem stepContinue_plain :
    settle ((e.holding ⟨s, σ, f :: fs, false⟩).stepContinue (t.plain (f :: fs))) =
      e.landed t (f :: fs) (Fiber.begin ⟨s, σ, f :: fs, false⟩ (.simple id .continueLoop)) := by
  have loops : (t.plain (f :: fs)).fromLoop = fromLoop (f :: fs) := rfl
  simp only [stepContinue, loops]
  cases inside : fromLoop (f :: fs) with
  | nil =>
    have act : instruct (inLoop (f :: fs)) s .continueLoop =
        (.normal, s, [.log "continue: no loop to continue."]) := by
      simp [instruct, fromLoop_eq_nil_iff.mp inside]
    rw [Fiber.begin_simple act]
    rfl
  | cons loop outer =>
    have act : instruct (inLoop (f :: fs)) s .continueLoop = (.continued, s, []) := by
      simp [instruct, inLoop_of_fromLoop inside]
    have leaves : leave .continued (f :: fs) = close (loop :: outer) := by simp [leave, inside]
    -- The thread moves to the end of the loop's list first; a frame that is closed forgets it.
    have closes : { (t.plain (f :: fs)).drop with
        frames := { loop with ip := loop.commands.length } :: outer }.finishBody =
        t.plain (close (loop :: outer)) :=
      Thread.plain_finishBody
    rw [Fiber.begin_simple act]
    simp only [landed, Fiber.leave, Fiber.tell, leaves, settle, closes]
    rfl

end Exits

theorem stepInstruction_plain (frames : x.frames = f :: fs) (running : x.halted = false)
    {id : String} {i : Instruction} (seq : i.isSequential = true) :
    settle ((e.holding x).stepInstruction (t.plain (f :: fs)) i dt) =
      e.landed t (f :: fs) (x.begin (.simple id i)) := by
  obtain ⟨s, σ, frames', halted⟩ := x
  simp only at frames running
  subst frames running
  cases i with
  | move _ => cases seq
  | turn _ => cases seq
  | wait _ => cases seq
  | broadcast _ _ => cases seq
  | setVar name value =>
    simp only [stepInstruction, holding_assign]
    rfl
  | changeVar name delta =>
    simp only [stepInstruction, holding_assign]
    rfl
  | deleteVar name => rfl
  | breakLoop => exact stepBreak_plain
  | continueLoop => exact stepContinue_plain
  | stopAll => rfl
  | stopThis => rfl
  | unsupported => rfl

theorem stepCommand_plain (frames : x.frames = f :: fs) (running : x.halted = false) {c : Command}
    (seq : c.isSequential = true) :
    settle ((e.holding x).stepCommand (t.plain (f :: fs)) c dt) =
      e.landed t (f :: fs) ((x.tell (shown c.blockId)).begin c) := by
  unfold stepCommand
  rw [holding_highlight]
  generalize hy : x.tell (shown c.blockId) = y
  have frames' : y.frames = f :: fs := hy ▸ frames
  have running' : y.halted = false := hy ▸ running
  have same : (e.holding y).store = y.store := rfl
  cases c with
  | simple id i => exact stepInstruction_plain frames' running' seq
  | repeatTimes id times body =>
    simp only [same, Fiber.begin]
    split
    · rw [landed_normal frames']
      rfl
    · rw [landed_enter frames' running']
      rfl
  | forever id body =>
    simp only [Fiber.begin, landed_enter frames' running']
    rfl
  | ifThen id cond body =>
    simp only [same, Fiber.begin]
    split
    · rw [landed_enter frames' running']
      rfl
    · rw [landed_normal frames']
      rfl
  | ifElse id cond yes no =>
    simp only [Fiber.begin, landed_enter frames' running']
    rfl

/-- A thread of sequential commands does in an engine what its fiber does. -/
theorem stepThread_plain (e : Engine) (t : Thread) (dt : Float) (frames : x.frames = f :: fs)
    (running : x.halted = false) (seq : ∀ c, f.current? = some c → c.isSequential = true) :
    (e.holding x).stepThread (t.plain (f :: fs)) dt = e.landed t (f :: fs) x.step := by
  have open' : ¬ x.halted = true := by simp [running]
  cases cur : f.current? with
  | none =>
    have top : (t.plain (f :: fs)).frames = f :: fs := rfl
    simp only [stepThread, top, cur, Thread.plain_finishBody, Fiber.step, frames, landed,
      if_neg open']
    rfl
  | some c =>
    rw [stepThread_command rfl cur, stepCommand_plain frames running (seq c cur)]
    simp only [Fiber.step, frames, cur, if_neg open']

end Engine

/-- The signals of an engine that stops, the newest first. -/
def Structured.Fiber.farewell (x : Fiber) : List Signal :=
  if x.halted then [.highlight none] else [.highlight none, .log "All scripts finished."]

namespace Engine

/-- The engine runs a single thread, and the fiber is what the thread consists of. -/
structure Lone (l : Limits) (t : Thread) (x : Fiber) (e : Engine) : Prop where
  limits : e.limits = l
  running : e.running = true
  store : e.store = x.store
  signals : e.signals = x.told
  threads : e.threads = [t.plain x.frames]
  born : t.bornTick ≤ e.tickCount
  unhalted : x.halted = false
  sequential : Sequential x.frames

/-- The engine has stopped behind the final state of the fiber. -/
structure Stopped (x : Fiber) (e : Engine) : Prop where
  final : x.Final
  running : e.running = false
  store : e.store = x.store
  signals : e.signals = x.farewell ++ x.told

/-- What so many steps of the fiber come to in the engine: they are all taken, or they lead to a
final state, or there are too many of them in a second. -/
inductive Takes (l : Limits) (t : Thread) (x : Fiber) (n : Nat) (e : Engine) : Prop where
  | all (lone : Lone l t (Fiber.step^[n] x) e) (unfinished : ∀ j < n, ¬ (Fiber.step^[j] x).Final)
  | some (k : Nat) (le : k ≤ n) (stopped : Stopped (Fiber.step^[k] x) e)
  | toomany (exceeded : l.maxOpsPerSecond < e.opsThisSecond)

variable {l : Limits} {t : Thread} {x : Fiber}

theorem Lone.held {e : Engine} (h : Lone l t x e) : e.holding x = e := by
  rw [holding, ← h.store, ← h.signals]

theorem Takes.append {m n : Nat} {e : Engine} (unfinished : ∀ j < m, ¬ (Fiber.step^[j] x).Final)
    (h : Takes l t (Fiber.step^[m] x) n e) : Takes l t x (n + m) e := by
  cases h with
  | all lone open' =>
    rw [← Function.iterate_add_apply] at lone
    refine .all lone fun j hj => ?_
    by_cases before : j < m
    · exact unfinished j before
    · have later := open' (j - m) (by omega)
      rwa [← Function.iterate_add_apply, Nat.sub_add_cancel (by omega)] at later
  | some k le stopped =>
    rw [← Function.iterate_add_apply] at stopped
    exact .some (k + m) (by omega) stopped
  | toomany exceeded => exact .toomany exceeded

theorem Takes.request {n : Nat} {e : Engine} (h : Takes l t x n e) :
    Takes l t x n { e with pending := true } := by
  cases h with
  | all lone unfinished =>
    exact .all ⟨lone.limits, lone.running, lone.store, lone.signals, lone.threads, lone.born,
      lone.unhalted, lone.sequential⟩ unfinished
  | some k le stopped =>
    exact .some k le ⟨stopped.final, stopped.running, stopped.store, stopped.signals⟩
  | toomany exceeded => exact .toomany exceeded

end Engine

namespace Pass

variable {l : Limits} {t : Thread} {x : Fiber} {dt : Float} {p : Pass}

structure Underway (l : Limits) (t : Thread) (x : Fiber) (left : Nat) (p : Pass) : Prop where
  lone : p.engine.Lone l t x
  born : t.bornTick < p.engine.tickCount
  open' : p.ended = false
  left : p.left = left

theorem visit_lone {n : Nat} (h : p.Underway l t x n) (unfinished : ¬ x.Final) :
    (p.visit dt 0 (t.plain x.frames)).progressed = true ∧
    ((p.visit dt 0 (t.plain x.frames)).Underway l t x.step n ∨
      (p.visit dt 0 (t.plain x.frames)).ended = true ∧
        (p.visit dt 0 (t.plain x.frames)).engine.Stopped x.step) := by
  obtain ⟨f, fs, frames⟩ := List.exists_cons_of_ne_nil fun bare => unfinished (Or.inr bare)
  have seq : Sequential (f :: fs) := frames ▸ h.lone.sequential
  have step : p.engine.stepThread (t.plain x.frames) dt = p.engine.landed t x.frames x.step := by
    have same := Engine.stepThread_plain p.engine t dt frames h.lone.unhalted
      fun c cur => seq.current cur c c.self_mem_preorder
    rw [h.lone.held, ← frames] at same
    exact same
  unfold visit
  rw [step]
  by_cases halts : x.step.halted = true
  · simp only [Engine.landed, if_pos halts]
    refine ⟨by simp [Engine.stop, Engine.highlight], Or.inr ⟨rfl, Or.inl halts, rfl, rfl, ?_⟩⟩
    simp [Engine.stop, Engine.highlight, Engine.holding, Fiber.farewell, halts]
  · have runs : (p.engine.holding x.step).running = true := h.lone.running
    have threads : (p.engine.holding x.step).threads = [t.plain x.frames] := h.lone.threads
    simp only [Engine.landed, if_neg halts, runs, if_true]
    refine ⟨by simp, Or.inl ⟨?_, h.born, h.open', h.left⟩⟩
    exact ⟨h.lone.limits, rfl, rfl, rfl, by simp [threads], h.lone.born, by simpa using halts,
      h.lone.sequential.step⟩

theorem turn_lone (dt : Float) {n : Nat} (h : p.Underway l t x (n + 1)) (unfinished : ¬ x.Final) :
    (p.turn dt 0).ended = true ∧ l.maxOpsPerSecond < (p.turn dt 0).engine.opsThisSecond ∨
    (p.turn dt 0).progressed = true ∧
      ((p.turn dt 0).Underway l t x.step n ∨
        (p.turn dt 0).ended = true ∧ (p.turn dt 0).engine.Stopped x.step) := by
  have listed : p.engine.threads[0]? = some (t.plain x.frames) := by simp [h.lone.threads]
  have due : ¬ ((t.plain x.frames).finished ||
      decide (p.engine.tickCount ≤ (t.plain x.frames).bornTick)) = true := by
    have bare : x.frames ≠ [] := fun bare => unfinished (Or.inr bare)
    simp only [Bool.or_eq_true, decide_eq_true_eq, not_or]
    exact ⟨by simp [Thread.plain, bare], Nat.not_le.mpr h.born⟩
  have left : p.left ≠ 0 := by rw [h.left]; simp
  have counted : p.count.Underway l t x n := by
    refine ⟨?_, h.born, h.open', by simp [count, h.left]⟩
    exact ⟨h.lone.limits, h.lone.running, h.lone.store, h.lone.signals, h.lone.threads, h.lone.born,
      h.lone.unhalted, h.lone.sequential⟩
  simp only [turn, h.open', listed, if_neg due, if_neg left, if_false, Bool.false_eq_true]
  split
  next exceeded => exact Or.inl ⟨rfl, h.lone.limits ▸ exceeded⟩
  · exact Or.inr (visit_lone counted unfinished)

theorem rounds_ended {n : Nat} (ended : p.ended = true) : rounds dt n p = p := by
  cases n with
  | zero => rfl
  | succ n => simp [rounds, ended]

theorem rounds_lone {n : Nat} (h : p.Underway l t x n) :
    (rounds dt n p).engine.Takes l t x n := by
  induction n generalizing p x with
  | zero => exact .all h.lone (by simp)
  | succ n ih =>
    have ready : ¬ (p.ended || !p.engine.running || decide (p.left = 0)) = true := by
      simp [h.open', h.lone.running, h.left]
    simp only [rounds, if_neg ready]
    by_cases bare : x.frames = []
    · have live : p.engine.liveThreads = [] := by
        simp [Engine.liveThreads, h.lone.threads, Thread.plain, bare]
      simp only [live, List.isEmpty_nil, if_true]
      refine .some 0 (Nat.zero_le _) ⟨Or.inr bare, rfl, h.lone.store, ?_⟩
      simp [Engine.stop, Engine.highlight, Engine.report, Fiber.farewell, h.lone.unhalted,
        h.lone.signals]
    · have unfinished : ¬ x.Final := by
        rintro (halted | bare')
        · rw [h.lone.unhalted] at halted; cases halted
        · exact bare bare'
      have live : p.engine.liveThreads = p.engine.threads := by
        simp [Engine.liveThreads, h.lone.threads, Thread.plain, bare]
      have once : p.round dt = turn dt { p with progressed := false } 0 := by
        simp [round, h.lone.threads]
      have again : Underway l t x (n + 1) { p with progressed := false } :=
        ⟨h.lone, h.born, h.open', h.left⟩
      have occupied : ¬ p.engine.threads.isEmpty = true := by simp [h.lone.threads]
      simp only [live, if_neg occupied]
      change ((if (p.round dt).progressed = true then rounds dt n (p.round dt)
        else p.round dt).engine.Takes l t x (n + 1))
      rw [once]
      rcases turn_lone dt again unfinished with ⟨ended, exceeded⟩ | ⟨progressed, moved⟩
      · rw [rounds_ended ended, ite_self]
        exact .toomany exceeded
      · rw [if_pos progressed]
        rcases moved with underway | ⟨ended, stopped⟩
        · exact (ih underway).append (by simpa using unfinished)
        · rw [rounds_ended ended]
          exact .some 1 (by omega) stopped

end Pass

namespace Engine

variable {l : Limits} {t : Thread} {x : Fiber} {e : Engine}

theorem tickPass_lone (h : e.Lone l t x) (now : Nat) :
    (e.tickPass now).engine.Takes l t x l.maxStepsPerTick := by
  unfold tickPass
  dsimp only
  rw [h.limits]
  refine Pass.rounds_lone ⟨?_, ?_, rfl, rfl⟩
  · obtain ⟨_, _, begun⟩ := e.beginTick_eq now
    rw [begun]
    exact ⟨h.limits, h.running, h.store, h.signals, h.threads, Nat.le_succ_of_le h.born, h.unhalted,
      h.sequential⟩
  · rw [beginTick_tickCount]
    exact Nat.lt_succ_of_le h.born

/-- A tick takes as many steps as it is allowed to. -/
theorem tick_lone (h : e.Lone l t x) (pending : e.pending = true) (now : Nat) :
    (e.tick now).1.Takes l t x l.maxStepsPerTick ∧
      ((e.tick now).1.running = true → (e.tick now).1.pending = true) := by
  have takes := tickPass_lone h now
  simp only [tick, h.running, pending, Bool.and_self, if_true]
  split
  · exact ⟨takes.request, fun _ => rfl⟩
  next stopped => exact ⟨takes, fun running => absurd running stopped⟩

end Engine

end BlockStage
