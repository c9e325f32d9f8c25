import Mathlib.Data.List.Chain
import BlockStage.Proofs.Run

/-! # The control stack of a thread

A thread that is not finished is inside of nested command lists, and every list but the outermost
was opened by the command at which the frame below it stands. `ControlStack` says this of a thread,
with what an action in flight and a wait in progress mean; it holds of every thread in every run.
-/
namespace BlockStage

/-- The frame stands at the command that has opened the frame above it. -/
def Frame.Carries (below above : Frame) : Prop :=
  ∃ c, below.current? = some c ∧ Opens c above.kind above.commands

/-- Frames from the innermost to the outermost, over a root list. -/
inductive Stack (Root : List Command → Prop) : List Frame → Prop where
  | root {f} (kind : f.kind = .seq) (commands : Root f.commands) : Stack Root [f]
  | push {f g fs} (carries : g.Carries f) (below : Stack Root (g :: fs)) : Stack Root (f :: g :: fs)

/-- The motion is of the kind that the instruction asks for. -/
inductive Performs : Instruction → Motion → Prop where
  | move {steps n x y} : Performs (.move steps) (.move n x y)
  | turn {degrees n r} : Performs (.turn degrees) (.turn n r)
  | wait {seconds} : Performs (.wait seconds) .wait

namespace Frame

variable {f : Frame} {c : Command}

theorem lt_of_current (h : f.current? = some c) : f.ip < f.commands.length :=
  (List.getElem?_eq_some_iff.mp h).1

theorem le_of_not_current (h : f.current? = none) : f.commands.length ≤ f.ip :=
  List.getElem?_eq_none_iff.mp h

end Frame

namespace Stack

variable {Root : List Command → Prop} {f f' g : Frame} {fs : List Frame}

theorem retop (h : Stack Root (f :: fs)) (kind : f'.kind = f.kind)
    (commands : f'.commands = f.commands) : Stack Root (f' :: fs) := by
  cases h with
  | root hk hc => exact .root (kind.trans hk) (commands ▸ hc)
  | push carries below =>
    obtain ⟨c, cur, opens⟩ := carries
    exact .push ⟨c, cur, by rw [kind, commands]; exact opens⟩ below

theorem recount {i n : Nat} (h : Stack Root (f :: fs)) (kind : f.kind = .counted i n)
    (kind' : f'.kind = .counted (i + 1) n) (commands : f'.commands = f.commands)
    (left : i + 1 < n) : Stack Root (f' :: fs) := by
  cases h with
  | root hk _ => rw [kind] at hk; cases hk
  | push carries below =>
    obtain ⟨c, cur, opens⟩ := carries
    rw [kind] at opens
    refine .push ⟨c, cur, ?_⟩ below
    rw [kind', commands]
    cases opens with
    | counted _ => exact .counted left

theorem of_append {above : List Frame} (h : Stack Root (above ++ f :: fs)) :
    Stack Root (f :: fs) := by
  induction above with
  | nil => exact h
  | cons a above ih =>
    cases above with
    | nil =>
      cases h with
      | push _ below => exact below
    | cons b above =>
      cases h with
      | push _ below => exact ih below

theorem of_dropWhile {frames : List Frame} {p : Frame → Bool} (h : Stack Root frames)
    (kept : frames.dropWhile p = f :: fs) : Stack Root (f :: fs) := by
  have split : frames.takeWhile p ++ (f :: fs) = frames := by
    rw [← kept]
    exact List.takeWhile_append_dropWhile
  rw [← split] at h
  exact h.of_append

theorem below_loop (h : Stack Root (f :: fs)) (loop : f.kind.isLoop = true) :
    ∃ g gs, fs = g :: gs ∧ g.Carries f ∧ Stack Root (g :: gs) := by
  cases h with
  | root hk _ => rw [hk] at loop; cases loop
  | push carries below => exact ⟨_, _, rfl, carries, below⟩

theorem bottom (h : Stack Root fs) (hf : fs.getLast? = some f) :
    f.kind = .seq ∧ Root f.commands := by
  induction h with
  | root hk hc =>
    obtain rfl := Option.some.inj hf
    exact ⟨hk, hc⟩
  | push _ _ ih => exact ih (by simpa using hf)

theorem parents (h : Stack Root fs) : fs.IsChain (fun above below => below.Carries above) := by
  induction h with
  | root => exact .singleton _
  | push carries _ ih => exact .cons_cons carries ih

theorem iterations (h : Stack Root fs) (hf : f ∈ fs) {i n : Nat} (kind : f.kind = .counted i n) :
    i < n := by
  induction h with
  | root hk _ =>
    rw [List.mem_singleton.mp hf, hk] at kind
    cases kind
  | push carries _ ih =>
    rcases List.mem_cons.mp hf with rfl | hf
    · obtain ⟨_, _, opens⟩ := carries
      rw [kind] at opens
      cases opens with
      | counted h => exact h
    · exact ih hf

end Stack

namespace Thread

variable {Root : List Command → Prop} {tick : Nat} {t : Thread}

/-- The invariant of a thread under which every step finds what it needs. -/
structure Controlled (Root : List Command → Prop) (tick : Nat) (t : Thread) : Prop where
  finished_iff : t.finished = true ↔ t.frames = []
  stack : t.frames ≠ [] → Stack Root t.frames
  top : ∀ f fs, t.frames = f :: fs → f.ip ≤ f.commands.length
  action : ∀ a, t.action = some a → ∃ id i, t.current? = some (.simple id i) ∧
    Performs i a.motion ∧ a.advancedAt ≤ tick
  waiting : ∀ ids, t.waitingOn = some ids →
    ∃ id m, t.current? = some (.simple id (.broadcast m true))

theorem current_eq {f : Frame} {fs : List Frame} (top : t.frames = f :: fs) :
    t.current? = f.current? := by
  simp [current?, top]

theorem frames_of_current {c : Command} (cur : t.current? = some c) :
    ∃ f fs, t.frames = f :: fs ∧ f.current? = some c := by
  cases top : t.frames with
  | nil => simp [current?, top] at cur
  | cons f fs => exact ⟨f, fs, rfl, (current_eq top).symm.trans cur⟩

theorem isTimed_of_performs {i : Instruction} {m : Motion} (h : Performs i m) :
    i.isTimed = true := by
  cases h <;> rfl

namespace Controlled

theorem mono {tick' : Nat} (h : t.Controlled Root tick) (le : tick ≤ tick') :
    t.Controlled Root tick' := by
  refine ⟨h.finished_iff, h.stack, h.top, fun a ha => ?_, h.waiting⟩
  obtain ⟨id, i, cur, performs, at'⟩ := h.action a ha
  exact ⟨id, i, cur, performs, at'.trans le⟩

theorem frames_ne_nil (h : t.Controlled Root tick) (unfinished : t.finished = false) :
    t.frames ≠ [] := by
  intro bare
  rw [h.finished_iff.mpr bare] at unfinished
  cases unfinished

theorem no_action (h : t.Controlled Root tick)
    (other : ∀ id i, t.current? = some (.simple id i) → i.isTimed = false) : t.action = none := by
  cases ha : t.action with
  | none => rfl
  | some a =>
    obtain ⟨id, i, cur, performs, _⟩ := h.action a ha
    have timed := isTimed_of_performs performs
    rw [other id i cur] at timed
    cases timed

theorem no_wait (h : t.Controlled Root tick)
    (other : ∀ id m, t.current? ≠ some (.simple id (.broadcast m true))) : t.waitingOn = none := by
  cases hw : t.waitingOn with
  | none => rfl
  | some ids =>
    obtain ⟨id, m, cur⟩ := h.waiting ids hw
    exact absurd cur (other id m)

theorem idle_of_plain (h : t.Controlled Root tick) {c : Command} (cur : t.current? = some c)
    (plain : c.isPlain = true) : t.action = none ∧ t.waitingOn = none := by
  refine ⟨h.no_action fun id i hi => ?_, h.no_wait fun id m hm => ?_⟩
  · obtain rfl := Option.some.inj (cur.symm.trans hi)
    cases i <;> simp_all [Command.isPlain, Instruction.isTimed]
  · obtain rfl := Option.some.inj (cur.symm.trans hm)
    simp [Command.isPlain] at plain

theorem idle_of_spent (h : t.Controlled Root tick) (spent : t.current? = none) :
    t.action = none ∧ t.waitingOn = none := by
  refine ⟨h.no_action fun id i hi => ?_, h.no_wait fun id m hm => ?_⟩
  · rw [spent] at hi; cases hi
  · rw [spent] at hm; cases hm

end Controlled

theorem controlled_of_idle {f : Frame} {fs : List Frame} (unfinished : t.finished = false)
    (frames : t.frames = f :: fs) (stack : Stack Root (f :: fs)) (top : f.ip ≤ f.commands.length)
    (action : t.action = none) (waiting : t.waitingOn = none) : t.Controlled Root tick := by
  refine ⟨by simp [unfinished, frames], fun _ => frames ▸ stack, ?_, ?_, ?_⟩
  · intro g gs hg
    obtain ⟨rfl, rfl⟩ := List.cons.inj (frames.symm.trans hg)
    exact top
  · intro a ha; rw [action] at ha; cases ha
  · intro ids hw; rw [waiting] at hw; cases hw

theorem controlled_of_finished (finished : t.finished = true) (frames : t.frames = [])
    (action : t.action = none) (waiting : t.waitingOn = none) : t.Controlled Root tick := by
  refine ⟨by simp [finished, frames], by simp [frames], by simp [frames], ?_, ?_⟩
  · intro a ha; rw [action] at ha; cases ha
  · intro ids hw; rw [waiting] at hw; cases hw

theorem start_controlled {id : Nat} {s : Script} (root : Root s.commands) :
    (start id s tick).Controlled Root tick :=
  controlled_of_idle rfl rfl (.root rfl root) (Nat.zero_le _) rfl rfl

section Moves

variable {f g : Frame} {fs gs : List Frame} {c : Command}

theorem advance_controlled (unfinished : t.finished = false) (action : t.action = none)
    (waiting : t.waitingOn = none) (frames : t.frames = f :: fs) (stack : Stack Root (f :: fs))
    (cur : f.current? = some c) : t.advance.Controlled Root tick := by
  have moved : t.advance = { t with frames := f.advance :: fs } := by simp [advance, frames]
  rw [moved]
  exact controlled_of_idle unfinished rfl (stack.retop rfl rfl) (f.lt_of_current cur) action waiting

theorem resume_controlled (unfinished : t.finished = false) (action : t.action = none)
    (waiting : t.waitingOn = none) (stack : Stack Root (f :: fs)) :
    (t.resume fs).Controlled Root tick := by
  cases stack with
  | root => exact controlled_of_finished rfl rfl action waiting
  | push carries below =>
    obtain ⟨c, cur, _⟩ := carries
    exact controlled_of_idle unfinished rfl (below.retop rfl rfl) (Frame.lt_of_current cur)
      action waiting

theorem finishBody_controlled (unfinished : t.finished = false) (action : t.action = none)
    (waiting : t.waitingOn = none) (frames : t.frames = f :: fs) (stack : Stack Root (f :: fs)) :
    t.finishBody.Controlled Root tick := by
  unfold finishBody
  rw [frames]
  cases kind : f.kind with
  | seq =>
    simp only [kind]
    exact resume_controlled unfinished action waiting stack
  | forever =>
    simp only [kind]
    exact controlled_of_idle unfinished rfl (stack.retop kind.symm rfl) (Nat.zero_le _)
      action waiting
  | counted i n =>
    simp only [kind]
    split
    next left =>
      exact controlled_of_idle unfinished rfl (stack.recount kind rfl rfl left) (Nat.zero_le _)
        action waiting
    · exact resume_controlled unfinished action waiting stack

theorem enter_controlled {kind : FrameKind} {body : List Command} (unfinished : t.finished = false)
    (action : t.action = none) (waiting : t.waitingOn = none) (frames : t.frames = f :: fs)
    (stack : Stack Root (f :: fs)) (cur : f.current? = some c) (opens : Opens c kind body) :
    (t.enter kind body).Controlled Root tick := by
  have pushed : (t.enter kind body).frames =
      { kind := kind, commands := body } :: f :: fs := by simp [enter, frames]
  exact controlled_of_idle unfinished pushed (.push ⟨c, cur, opens⟩ stack) (Nat.zero_le _)
    action waiting

theorem fromLoop_isLoop (inside : t.fromLoop = f :: fs) : f.kind.isLoop = true := by
  have kept := List.head?_dropWhile_not (fun f : Frame => !f.kind.isLoop) t.frames
  change t.fromLoop = f :: fs at inside
  simp only [fromLoop] at inside
  rw [inside] at kept
  simpa using kept

theorem fromLoop_stack (inside : t.fromLoop = f :: fs) (stack : Stack Root t.frames) :
    Stack Root (f :: fs) :=
  stack.of_dropWhile inside

end Moves

end Thread

theorem Engine.stepThread_current {e : Engine} {t : Thread} {dt : Float} {c : Command}
    (cur : t.current? = some c) : e.stepThread t dt = settle (e.stepCommand t c dt) := by
  obtain ⟨f, fs, top, here⟩ := Thread.frames_of_current cur
  exact stepThread_command top here

theorem Engine.beginAction_performs {e : Engine} {i : Instruction} {a : Action}
    (begun : e.beginAction? i = some a) : Performs i a.motion := by
  cases i with
  | move steps =>
    obtain ⟨s, _, rfl⟩ := Option.map_eq_some_iff.mp begun
    exact .move
  | turn degrees =>
    obtain ⟨s, _, rfl⟩ := Option.map_eq_some_iff.mp begun
    exact .turn
  | wait seconds =>
    obtain rfl := Option.some.inj begun
    exact .wait
  | _ => cases begun

theorem Action.advance_motion (a : Action) (tick : Nat) (dt : Float) :
    (a.advance tick dt).motion = a.motion ∧ (a.advance tick dt).advancedAt = tick := by
  unfold Action.advance
  split
  next h => exact ⟨rfl, by simpa using h⟩
  · exact ⟨rfl, rfl⟩

/-- Every step keeps the control stack of the thread that takes it. -/
theorem Engine.Effect.controlled {Root : List Command → Prop} {e e' : Engine} {t t' : Thread}
    {dt : Float} {progress : Bool} (h : Engine.Effect e t dt e' t' progress)
    (ht : t.Controlled Root e.tickCount) (unfinished : t.finished = false) :
    t'.Controlled Root e.tickCount := by
  have nonempty := ht.frames_ne_nil unfinished
  have stack := ht.stack nonempty
  cases h with
  | empty bare => exact absurd bare nonempty
  | closed top spent =>
    obtain ⟨action, waiting⟩ := ht.idle_of_spent ((Thread.current_eq top).trans spent)
    exact Thread.finishBody_controlled unfinished action waiting top (top ▸ stack)
  | passed cur plain _ =>
    obtain ⟨action, waiting⟩ := ht.idle_of_plain cur plain
    obtain ⟨f, fs, top, hc⟩ := Thread.frames_of_current cur
    exact Thread.advance_controlled unfinished action waiting top (top ▸ stack) hc
  | entered cur opens _ =>
    obtain ⟨action, waiting⟩ := ht.idle_of_plain cur (by cases opens <;> rfl)
    obtain ⟨f, fs, top, hc⟩ := Thread.frames_of_current cur
    exact Thread.enter_controlled unfinished action waiting top (top ▸ stack) hc opens
  | @acting _ id i a cur timed begun _ =>
    have motion := a.advance_motion e.tickCount dt
    have performs : Performs i a.motion := by
      rcases begun with flying | ⟨_, begun⟩
      · obtain ⟨id', i', cur', performs, _⟩ := ht.action a flying
        obtain ⟨rfl, rfl⟩ := Command.simple.inj (Option.some.inj (cur.symm.trans cur'))
        exact performs
      · exact Engine.beginAction_performs begun
    refine ⟨ht.finished_iff, ht.stack, ht.top, ?_, ht.waiting⟩
    intro b hb
    obtain rfl := Option.some.inj hb
    exact ⟨id, i, cur, by rw [motion.1]; exact performs, motion.2.le⟩
  | @acted _ id i cur timed _ =>
    have waiting := ht.no_wait fun id' m hm => by
      obtain ⟨_, rfl⟩ := Command.simple.inj (Option.some.inj (cur.symm.trans hm))
      cases timed
    obtain ⟨f, fs, top, hc⟩ := Thread.frames_of_current cur
    have moved : { t with action := none }.frames = f :: fs := top
    exact Thread.advance_controlled unfinished rfl waiting moved (top ▸ stack) hc
  | sent cur _ =>
    obtain ⟨action, waiting⟩ := ht.idle_of_plain cur rfl
    obtain ⟨f, fs, top, hc⟩ := Thread.frames_of_current cur
    exact Thread.advance_controlled unfinished action waiting top (top ▸ stack) hc
  | called cur _ _ _ => exact ⟨ht.finished_iff, ht.stack, ht.top, ht.action, fun _ _ => ⟨_, _, cur⟩⟩
  | @unheard _ id m cur idle _ _ =>
    have action := ht.no_action fun id' i hi => by
      obtain ⟨_, rfl⟩ := Command.simple.inj (Option.some.inj (cur.symm.trans hi))
      rfl
    obtain ⟨f, fs, top, hc⟩ := Thread.frames_of_current cur
    exact Thread.advance_controlled unfinished action idle top (top ▸ stack) hc
  | polled => exact ht
  | @resumed _ id m ids cur _ _ _ =>
    have action := ht.no_action fun id' i hi => by
      obtain ⟨_, rfl⟩ := Command.simple.inj (Option.some.inj (cur.symm.trans hi))
      rfl
    obtain ⟨f, fs, top, hc⟩ := Thread.frames_of_current cur
    have moved : { t with waitingOn := none }.frames = f :: fs := top
    exact Thread.advance_controlled unfinished action rfl moved (top ▸ stack) hc
  | broke _ inside _ =>
    have inner := Thread.fromLoop_stack inside stack
    exact Thread.resume_controlled unfinished rfl rfl inner
  | continued _ inside _ =>
    have inner := Thread.fromLoop_stack inside stack
    exact Thread.finishBody_controlled unfinished rfl rfl rfl (inner.retop rfl rfl)
  | ended => exact Thread.controlled_of_finished rfl rfl rfl rfl
  | halted => exact ht

def RootOf (Loads : Program → Prop) (commands : List Command) : Prop :=
  ∃ p, Loads p ∧ ∃ s ∈ p.roots, s.commands = commands

theorem Program.mem_roots_of_handler {p : Program} {m : String} {s : Script}
    (h : s ∈ p.handlersFor m) : s ∈ p.roots := by
  unfold handlersFor at h
  cases found : p.handlers.find? m with
  | none => simp [found] at h
  | some scripts =>
    simp only [found, Option.getD_some] at h
    obtain ⟨entry, mem, rfl⟩ := Option.map_eq_some_iff.mp found
    refine List.mem_append_right _ (List.mem_flatten.mpr ⟨entry.2, ?_, h⟩)
    exact List.mem_map.mpr ⟨entry, List.mem_of_find?_eq_some mem, rfl⟩

theorem Engine.mem_called {e : Engine} {m : Expr} {s : Script} (h : s ∈ e.called m) :
    ∃ p, e.program = some p ∧ s ∈ p.roots := by
  unfold called handlersFor at h
  split at h
  · cases h
  next p hp => exact ⟨p, hp, p.mem_roots_of_handler h⟩

structure Engine.Controlled (Loads : Program → Prop) (e : Engine) : Prop where
  program : ∀ p, e.program = some p → Loads p
  threads : ∀ t ∈ e.threads, t.Controlled (RootOf Loads) e.tickCount

namespace Engine.Controlled

variable {Loads : Program → Prop} {e : Engine}

theorem startThreads (h : e.Controlled Loads) {scripts : List Script} {id : Nat}
    (known : ∀ s ∈ scripts, ∃ p, e.program = some p ∧ s ∈ p.roots) {t : Thread}
    (ht : t ∈ Engine.startThreads e.tickCount id scripts) :
    t.Controlled (RootOf Loads) e.tickCount := by
  obtain ⟨s, hs, _, _, _, rfl⟩ := Engine.mem_startThreads ht
  obtain ⟨p, hp, root⟩ := known s hs
  exact Thread.start_controlled ⟨p, h.program p hp, s, root, rfl⟩

theorem start (h : e.Controlled Loads) (now : Nat) : (e.start now).Controlled Loads := by
  refine ⟨fun p hp => h.program p (by simpa using hp), fun t ht => ?_⟩
  rw [Engine.start_tickCount]
  rcases e.start_cases now with ⟨same, _⟩ | ⟨p, hp, started, _⟩
  · exact h.threads t (same ▸ ht)
  · rw [started] at ht
    exact h.startThreads (fun s hs => ⟨p, hp, List.mem_append_left _ hs⟩) ht

theorem after {v : Visit} (h : v.engine.Controlled Loads) (due : v.Due) :
    v.after.Controlled Loads := by
  obtain ⟨program, tickCount, outcome⟩ := due.after_cases
  refine ⟨fun p hp => h.program p (program ▸ hp), fun t ht => ?_⟩
  rw [tickCount]
  cases outcome with
  | halted threads _ => rw [threads] at ht; cases ht
  | kept scripts broadcast threads _ =>
    rw [threads] at ht
    rcases List.mem_append.mp ht with old | new
    · rcases List.mem_or_eq_of_mem_set old with old | rfl
      · exact h.threads t old
      · exact v.effect.controlled (h.threads _ due.mem) due.unfinished
    · refine h.startThreads (fun s hs => ?_) new
      rcases broadcast with rfl | ⟨m, rfl⟩
      · cases hs
      · exact Engine.mem_called hs

end Engine.Controlled

theorem Reached.controlled {l : Limits} {Loads : Program → Prop} {h : List Visit} {e : Engine}
    (r : Reached l Loads h e) : e.Controlled Loads := by
  induction r with
  | fresh => exact ⟨by simp, by simp⟩
  | load p hp _ ih =>
    refine ⟨fun q hq => ?_, ih.threads⟩
    obtain rfl := Option.some.inj hq
    exact hp
  | bind s _ ih => exact ⟨ih.program, ih.threads⟩
  | start now _ ih => exact ih.start now
  | stop _ ih => exact ⟨ih.program, fun t ht => by cases ht⟩
  | report line _ ih => exact ⟨ih.program, ih.threads⟩
  | request _ ih => exact ⟨ih.program, ih.threads⟩
  | beginTick now _ ih =>
    refine ⟨fun p hp => ih.program p (by simpa using hp), fun t ht => ?_⟩
    rw [Engine.beginTick_tickCount]
    exact (ih.threads t (by simpa using ht)).mono (Nat.le_succ _)
  | prune _ ih => exact ⟨ih.program, fun t ht => ih.threads t (List.mem_of_mem_filter ht)⟩
  | count _ ih => exact ⟨ih.program, ih.threads⟩
  | step v due _ ih => exact ih.after due

namespace Thread

structure ControlStack (Root : List Command → Prop) (tick : Nat) (t : Thread) : Prop where
  finished_iff : t.finished = true ↔ t.frames = []
  bottom : ∀ f, t.frames.getLast? = some f → f.kind = .seq ∧ Root f.commands
  parents : t.frames.IsChain fun above below => below.ip < below.commands.length ∧
    ∃ c, below.commands[below.ip]? = some c ∧ Opens c above.kind above.commands
  top : ∀ f, t.frames.head? = some f → f.ip ≤ f.commands.length
  iterations : ∀ f ∈ t.frames, ∀ i n, f.kind = .counted i n → i < n
  action : ∀ a, t.action = some a → ∃ id i, t.current? = some (.simple id i) ∧
    Performs i a.motion ∧ a.advancedAt ≤ tick
  waiting : ∀ ids, t.waitingOn = some ids →
    ∃ id m, t.current? = some (.simple id (.broadcast m true))

/-- What a step reads of the stack is there: an innermost frame, whose position is that of a command
or the end of the list, and a loop, never outermost, at the position where one is found. -/
structure InRange (t : Thread) : Prop where
  top : ∃ f fs, t.frames = f :: fs ∧
    (f.ip = f.commands.length ∨ ∃ c, f.commands[f.ip]? = some c ∧ t.current? = some c)
  loop : ∀ index, t.nearestLoop? = some index → 0 < index ∧ index < t.frames.length ∧
    ∃ f, t.frames.reverse[index]? = some f ∧ f.kind.isLoop = true

variable {Root : List Command → Prop} {tick : Nat} {t : Thread}

theorem Controlled.controlStack (h : t.Controlled Root tick) : t.ControlStack Root tick := by
  by_cases bare : t.frames = []
  · refine ⟨h.finished_iff, ?_, ?_, ?_, ?_, h.action, h.waiting⟩ <;> simp [bare]
  · have stack := h.stack bare
    refine ⟨h.finished_iff, fun f hf => stack.bottom hf, ?_, ?_, ?_, h.action, h.waiting⟩
    · refine stack.parents.imp fun above below carries => ?_
      obtain ⟨c, cur, opens⟩ := carries
      exact ⟨Frame.lt_of_current cur, c, cur, opens⟩
    · intro f hf
      obtain ⟨fs, top⟩ := List.head?_eq_some_iff.mp hf
      exact h.top f fs top
    · intro f hf i n kind
      exact stack.iterations hf kind

theorem Controlled.inRange (h : t.Controlled Root tick) (unfinished : t.finished = false) :
    t.InRange := by
  have nonempty := h.frames_ne_nil unfinished
  constructor
  · obtain ⟨f, fs, top⟩ := List.exists_cons_of_ne_nil nonempty
    refine ⟨f, fs, top, ?_⟩
    cases cur : f.current? with
    | none =>
      have beyond := f.le_of_not_current cur
      have inside := h.top f fs top
      exact Or.inl (by omega)
    | some c => exact Or.inr ⟨c, cur, (current_eq top).trans cur⟩
  · intro index found
    cases inside : t.fromLoop with
    | nil => simp [nearestLoop?, inside] at found
    | cons f fs =>
      have index_eq : fs.length = index := by simpa [nearestLoop?, inside] using found
      have split : t.frames.takeWhile (fun f => !f.kind.isLoop) ++ (f :: fs) = t.frames := by
        rw [← inside]
        exact List.takeWhile_append_dropWhile
      obtain ⟨g, gs, rfl, _, _⟩ :=
        (fromLoop_stack inside (h.stack nonempty)).below_loop (fromLoop_isLoop inside)
      subst index_eq
      refine ⟨by simp, ?_, f, ?_, fromLoop_isLoop inside⟩
      · rw [← split]
        simp only [List.length_append, List.length_cons]
        omega
      · rw [← split]
        simp

end Thread

/-- In every run, every thread keeps the representation of control, between operations and before
every step of a tick that follows; so a step never looks outside of a list or of the stack. -/
theorem control_stack_invariant (l : Limits) (ops : List Engine.Operation) :
    let e := ({ limits := l } : Engine).performAll ops
    let Root := RootOf (fun p => .load p ∈ ops)
    (∀ t ∈ e.threads, t.ControlStack Root e.tickCount) ∧
    ∀ now, ∀ v ∈ e.visits (.tick now),
      v.thread.ControlStack Root v.engine.tickCount ∧ v.thread.InRange := by
  intro e Root
  have reached := Reached.run l ops
  refine ⟨fun t ht => (reached.controlled.threads t ht).controlStack, fun now v hv => ?_⟩
  obtain ⟨_, here, due⟩ := reached.visits hv
  have controlled := here.controlled.threads v.thread due.mem
  exact ⟨controlled.controlStack, controlled.inRange due.unfinished⟩

end BlockStage
