import BlockStage.Proofs.Places

/-! # Scripts that end

A script ends if nothing in it repeats without end, takes time or waits for other threads. The
number of its counted iterations depends on variables that other threads may write, but it is read
once, on entering the loop, and is one of 64 bits. So a bound on the steps can be read off the
script, whatever the engine is before each of them: what is ahead of the frames gets less with every
step.
-/
namespace BlockStage

namespace Command

/-- Commands that take no time, wait for nothing and do not repeat without end. -/
def isBrief : Command → Bool
  | .forever _ _ => false
  | c => c.isPlain

def AllBrief (cs : List Command) : Prop := ∀ c ∈ preorderList cs, c.isBrief = true

instance (cs : List Command) : Decidable (AllBrief cs) :=
  inferInstanceAs (Decidable (∀ c ∈ preorderList cs, c.isBrief = true))

mutual

/-- A bound on the steps that a brief command takes. A loop has at most as many iterations as can be
counted, and an extra step at the end of each of them. -/
def mostSteps : Command → Nat
  | .simple _ _ => 1
  | .repeatTimes _ _ body => (Word.limit64 - 1) * (mostStepsAll body + 1) + 1
  | .forever _ _ => 0
  | .ifThen _ _ body => mostStepsAll body + 2
  | .ifElse _ _ yes no => max (mostStepsAll yes) (mostStepsAll no) + 2

def mostStepsAll : List Command → Nat
  | [] => 0
  | c :: cs => c.mostSteps + mostStepsAll cs

end

theorem AllBrief.of_mem {cs : List Command} {c : Command} (h : AllBrief cs) (mem : c ∈ cs) :
    ∀ d ∈ c.preorder, d.isBrief = true :=
  fun d hd => h d (mem_preorderList mem hd)

theorem mostSteps_pos {c : Command} (brief : c.isBrief = true) : 0 < c.mostSteps := by
  cases c with
  | forever => cases brief
  | _ => simp [mostSteps]

theorem not_timed_of_isBrief {id : String} {i : Instruction}
    (brief : (simple id i).isBrief = true) : i.isTimed = false := by
  cases i with
  | move | turn | wait => cases brief
  | _ => rfl

end Command

open Command (AllBrief mostSteps mostStepsAll)

/-! ## What is ahead -/

namespace Frame

/-- The steps ahead once the list has been gone through: its end, and all iterations to come. -/
def rest (f : Frame) : Nat :=
  match f.kind with
  | .counted i n => (n - i - 1) * (mostStepsAll f.commands + 1) + 1
  | _ => 1

/-- The steps that are ahead in the frame. -/
def ahead (f : Frame) : Nat := mostStepsAll (f.commands.drop f.ip) + f.rest

theorem rest_pos (f : Frame) : 0 < f.rest := by
  unfold rest
  split <;> exact Nat.succ_pos _

theorem rest_le_ahead (f : Frame) : f.rest ≤ f.ahead := Nat.le_add_left _ _

theorem ahead_of_current {f : Frame} {c : Command} (cur : f.current? = some c) :
    f.ahead = c.mostSteps + f.advance.ahead := by
  obtain ⟨inside, rfl⟩ := List.getElem?_eq_some_iff.mp cur
  have rest : f.advance.rest = f.rest := rfl
  rw [ahead, List.drop_eq_getElem_cons inside, mostStepsAll, ahead, rest, Nat.add_assoc]
  rfl

theorem ahead_counted_lt {n : Nat} (small : n < Word.limit64) (id : String) (times : Expr)
    (body : List Command) :
    ({ kind := .counted 0 n, commands := body } : Frame).ahead <
      (Command.repeatTimes id times body).mostSteps := by
  have some : 1 < Word.limit64 := by decide
  have iterations : n - 0 - 1 + 1 ≤ Word.limit64 - 1 := by omega
  have most := Nat.mul_le_mul_right (mostStepsAll body + 1) iterations
  rw [Nat.succ_mul] at most
  simp only [ahead, rest, mostSteps, List.drop_zero]
  omega

end Frame

namespace Structured

/-- The steps ahead when the innermost list has been left: each frame stands at the command that has
opened the one above it. -/
def aheadBelow : List Frame → Nat
  | [] => 0
  | f :: fs => f.advance.ahead + aheadBelow fs

def ahead : List Frame → Nat
  | [] => 0
  | f :: fs => f.ahead + aheadBelow fs

variable {f : Frame} {fs : List Frame}

theorem ahead_pass (frames : List Frame) : ahead (pass frames) = aheadBelow frames := by
  cases frames <;> rfl

theorem ahead_close (finite : f.kind ≠ .forever) :
    ahead (close (f :: fs)) < f.rest + aheadBelow fs := by
  have last : 0 < f.rest := f.rest_pos
  simp only [close]
  split
  · rw [ahead_pass]
    omega
  next kind => exact absurd kind finite
  next i n kind =>
    split
    next left =>
      -- one iteration less is to come, and its commands are ahead again
      obtain ⟨k, more⟩ : ∃ k, n - i - 1 = k + 1 := ⟨n - i - 2, by omega⟩
      have fewer : n - (i + 1) - 1 = k := by omega
      simp only [ahead, Frame.ahead, Frame.rest, kind, List.drop_zero, more, fewer, Nat.succ_mul]
      omega
    · rw [ahead_pass]
      omega

theorem rest_le_aheadBelow : f.rest + aheadBelow fs ≤ aheadBelow (f :: fs) :=
  Nat.add_le_add_right f.advance.rest_le_ahead _

theorem rest_le_ahead : f.rest + aheadBelow fs ≤ ahead (f :: fs) :=
  Nat.add_le_add_right f.rest_le_ahead _

theorem ahead_pos {frames : List Frame} (nonempty : frames ≠ []) : 0 < ahead frames := by
  obtain ⟨f, fs, rfl⟩ := List.exists_cons_of_ne_nil nonempty
  exact Nat.lt_of_lt_of_le (Nat.add_pos_left f.rest_pos _) rest_le_ahead

theorem le_aheadBelow_append (above : List Frame) : aheadBelow fs ≤ aheadBelow (above ++ fs) := by
  induction above with
  | nil => exact Nat.le_refl _
  | cons g above ih => exact Nat.le_add_left_of_le ih

theorem rest_fromLoop {frames : List Frame} (inside : fromLoop frames = f :: fs) :
    f.rest + aheadBelow fs ≤ ahead frames := by
  have split : frames.takeWhile (fun f => !f.kind.isLoop) ++ (f :: fs) = frames := by
    rw [← inside]
    exact List.takeWhile_append_dropWhile
  rw [← split]
  cases frames.takeWhile (fun f => !f.kind.isLoop) with
  | nil => exact rest_le_ahead
  | cons g above =>
    have loop : f.rest + aheadBelow fs ≤ aheadBelow (above ++ f :: fs) :=
      rest_le_aheadBelow.trans (le_aheadBelow_append above)
    exact Nat.le_add_left_of_le loop

end Structured

open Structured (ahead aheadBelow)

/-! ## Steps -/

/-- Lists inside of brief lists are brief, and none of them repeats without end. -/
theorem Stack.brief {frames : List Frame} (stack : Stack AllBrief frames) {f : Frame}
    (mem : f ∈ frames) : f.kind ≠ .forever ∧ AllBrief f.commands := by
  induction stack generalizing f with
  | root kind commands =>
    obtain rfl := List.mem_singleton.mp mem
    exact ⟨by simp [kind], commands⟩
  | push carries _ ih =>
    rcases List.mem_cons.mp mem with rfl | mem
    · obtain ⟨c, cur, opens⟩ := carries
      have inside := (ih List.mem_cons_self).2.of_mem (List.mem_of_getElem? cur)
      obtain ⟨n, body⟩ := opens.body
      refine ⟨?_, fun d hd => inside d (c.mem_preorder_of_body (List.mem_of_getElem? body) hd)⟩
      have brief := inside c c.self_mem_preorder
      intro endless
      rw [endless] at opens
      cases opens
      cases brief
    · exact ih mem

namespace Engine

theorem loopCount_lt (x : Float) : loopCount x < Word.limit64 := by
  have most : Word.limit64 - 1 < Word.limit64 := by decide
  unfold loopCount
  split
  · exact Nat.lt_of_le_of_lt (Nat.min_le_right _ _) most
  · exact most
  · decide
  · decide
  · decide

variable {e : Engine} {t : Thread} {dt : Float}

theorem stepThread_repeat {id : String} {times : Expr} {body : List Command}
    (cur : t.current? = some (.repeatTimes id times body)) :
    (e.stepThread t dt).2.1 = t.advance ∨
    ∃ n < Word.limit64, (e.stepThread t dt).2.1 = t.enter (.counted 0 n) body := by
  rw [stepThread_current cur]
  unfold stepCommand
  dsimp only
  generalize (if (Command.repeatTimes id times body).blockId.isEmpty = true then e else _) = e₀
  split
  · exact Or.inl rfl
  · exact Or.inr ⟨_, loopCount_lt _, rfl⟩

/-- The thread runs into a `stopAll` that ends the run. -/
def StopsAll (e : Engine) (t : Thread) (dt : Float) : Prop :=
  (∃ id, t.current? = some (.simple id .stopAll)) ∧ (e.stepThread t dt).1.running = false

end Engine

namespace Thread

variable {t : Thread} {c : Command} {tick : Nat}

theorem ahead_advance (cur : t.current? = some c) (brief : c.isBrief = true) :
    ahead t.advance.frames < ahead t.frames := by
  obtain ⟨f, fs, top, here⟩ := frames_of_current cur
  have some := Command.mostSteps_pos brief
  rw [advance_frames, top]
  simp only [Structured.pass, ahead, Frame.ahead_of_current here]
  omega

theorem ahead_enter {kind : FrameKind} {body : List Command} (cur : t.current? = some c)
    (cost : ({ kind := kind, commands := body } : Frame).ahead < c.mostSteps) :
    ahead (t.enter kind body).frames < ahead t.frames := by
  obtain ⟨f, fs, top, here⟩ := frames_of_current cur
  simp only [enter, top, ahead, aheadBelow, Frame.ahead_of_current here]
  omega

theorem Controlled.current_brief (h : t.Controlled AllBrief tick) (cur : t.current? = some c) :
    c.isBrief = true := by
  obtain ⟨f, fs, top, here⟩ := frames_of_current cur
  have stack := h.stack (by simp [top])
  rw [top] at stack
  exact (stack.brief List.mem_cons_self).2.of_mem (List.mem_of_getElem? here) c c.self_mem_preorder

theorem Controlled.anyTick (h : t.Controlled AllBrief tick) (tick' : Nat) :
    t.Controlled AllBrief tick' := by
  refine ⟨h.finished_iff, h.stack, h.top, fun a flying => ?_, h.waiting⟩
  obtain ⟨id, i, cur, performs, _⟩ := h.action a flying
  have timed := isTimed_of_performs performs
  rw [Command.not_timed_of_isBrief (h.current_brief cur)] at timed
  cases timed

end Thread

theorem Engine.stepThread_ahead (e : Engine) (dt : Float) {t : Thread} {tick : Nat}
    (h : t.Controlled AllBrief tick) (unfinished : t.finished = false) :
    ahead (e.stepThread t dt).2.1.frames < ahead t.frames ∨ e.StopsAll t dt := by
  have stack := h.stack_of_unfinished unfinished
  have effect := e.stepThread_effect t dt
  have counted : ∀ {id times body}, t.current? = some (.repeatTimes id times body) →
      (e.stepThread t dt).2.1 = t.advance ∨
      ∃ n < Word.limit64, (e.stepThread t dt).2.1 = t.enter (.counted 0 n) body :=
    stepThread_repeat
  unfold StopsAll
  unfold Yields at effect
  generalize e.stepThread t dt = r at effect counted ⊢
  obtain ⟨e', t', progress⟩ := r
  have moved : ∀ {c}, t.current? = some c → ahead t.advance.frames < ahead t.frames :=
    fun cur => Thread.ahead_advance cur (h.current_brief cur)
  have looped : ∀ {f fs}, t.fromLoop = f :: fs → f.rest + aheadBelow fs ≤ ahead t.frames :=
    fun inside => Structured.rest_fromLoop inside
  have untimed : ∀ {id i}, t.current? = some (.simple id i) → ¬ i.isTimed = true := by
    intro id i cur timed
    rw [Command.not_timed_of_isBrief (h.current_brief cur)] at timed
    cases timed
  dsimp only at effect counted ⊢
  cases effect with
  | empty bare => exact absurd bare (h.frames_ne_nil unfinished)
  | closed top =>
    left
    rw [top] at stack
    rw [Thread.finishBody_frames, top]
    exact (Structured.ahead_close (stack.brief List.mem_cons_self).1).trans_le
      Structured.rest_le_ahead
  | passed cur => exact Or.inl (moved cur)
  | entered cur opens =>
    left
    cases opens with
    | counted =>
      rcases counted cur with same | ⟨n, small, same⟩
      · rw [same]
        exact moved cur
      · rw [same]
        exact Thread.ahead_enter cur (Frame.ahead_counted_lt small ..)
    | forever => cases h.current_brief cur
    | _ =>
      refine Thread.ahead_enter cur ?_
      simp only [Frame.ahead, Frame.rest, mostSteps, List.drop_zero]
      omega
  | acting cur timed => exact absurd timed (untimed cur)
  | acted cur timed => exact absurd timed (untimed cur)
  | sent cur => exact Or.inl (moved cur)
  | called cur => cases h.current_brief cur
  | unheard cur => cases h.current_brief cur
  | polled cur => cases h.current_brief cur
  | resumed cur => cases h.current_brief cur
  | @broke _ _ loop _ _ inside =>
    have left := looped inside
    have last := loop.rest_pos
    rw [Thread.resume_frames, Structured.ahead_pass]
    omega
  | @continued _ _ loop outer _ inside =>
    left
    have around : loop ∈ t.frames := (List.dropWhile_sublist _).subset
      (inside ▸ List.mem_cons_self : loop ∈ t.fromLoop)
    rw [Thread.finishBody_frames, Structured.close_moved]
    exact (Structured.ahead_close (stack.brief around).1).trans_le (looped inside)
  | ended cur =>
    have some := moved cur
    exact Or.inl (Nat.zero_lt_of_lt some)
  | halted cur => exact Or.inr ⟨⟨_, cur⟩, rfl⟩

/-! ## Runs -/

namespace Thread

/-- The thread after so many steps. The engine that each step finds, with all variables, and the
time that passes are up to others. -/
def afterSteps (found : Nat → Engine × Float) (t : Thread) : Nat → Thread
  | 0 => t
  | n + 1 => ((found n).1.stepThread (t.afterSteps found n) (found n).2).2.1

/-- The thread is finished after so many steps, or the last of them has ended the run. -/
def EndsAfter (found : Nat → Engine × Float) (t : Thread) (n : Nat) : Prop :=
  (t.afterSteps found n).finished = true ∨
  ∃ m, n = m + 1 ∧ (found m).1.StopsAll (t.afterSteps found m) (found m).2

variable {t : Thread} {tick : Nat}

theorem Controlled.ahead_afterSteps (h : t.Controlled AllBrief tick)
    (found : Nat → Engine × Float) (n : Nat) :
    (∃ k ≤ n, t.EndsAfter found k) ∨
    (t.afterSteps found n).Controlled AllBrief tick ∧
      ahead (t.afterSteps found n).frames + n ≤ ahead t.frames := by
  induction n with
  | zero => exact Or.inr ⟨h, Nat.le_refl _⟩
  | succ n ih =>
    rcases ih with ⟨k, before, ended⟩ | ⟨controlled, left⟩
    · exact Or.inl ⟨k, Nat.le_succ_of_le before, ended⟩
    · cases done : (t.afterSteps found n).finished with
      | true => exact Or.inl ⟨n, Nat.le_succ n, Or.inl done⟩
      | false =>
        rcases (found n).1.stepThread_ahead (found n).2 controlled done with less | halts
        · have here := controlled.anyTick (found n).1.tickCount
          have kept := ((found n).1.stepThread_effect _ (found n).2).controlled here done
          refine Or.inr ⟨kept.anyTick tick, ?_⟩
          rw [afterSteps]
          omega
        · exact Or.inl ⟨n + 1, Nat.le_refl _, Or.inr ⟨n, rfl, halts⟩⟩

end Thread

/-- A script of commands that are brief at any depth ends: after at most so many steps its thread is
finished, or it has run into a `stopAll`. It does not matter what the engine is before each of the
steps, the values of the variables among it, nor how others have changed it since the last one. -/
theorem brief_script_ends (s : Script) (brief : AllBrief s.commands) (id tick : Nat)
    (found : Nat → Engine × Float) :
    ∃ n ≤ mostStepsAll s.commands + 1, (Thread.start id s tick).EndsAfter found n := by
  have start : (Thread.start id s tick).Controlled AllBrief tick := Thread.start_controlled brief
  rcases start.ahead_afterSteps found (mostStepsAll s.commands + 1) with
    ⟨n, bound, ended⟩ | ⟨controlled, left⟩
  · exact ⟨n, bound, ended⟩
  · refine ⟨_, Nat.le_refl _, Or.inl ?_⟩
    have whole : ahead (Thread.start id s tick).frames = mostStepsAll s.commands + 1 := by
      simp [Thread.start, ahead, aheadBelow, Frame.ahead, Frame.rest]
    rw [controlled.finished_iff]
    by_contra nonempty
    have some := Structured.ahead_pos nonempty
    omega

/-- The number of iterations is doubled inside of the loop, and others write it all the time. -/
def restlessScript : Script where
  id := "restless"
  commands :=
    [.repeatTimes "outer" (.var "n")
      [.simple "double" (.changeVar "n" (.var "n")),
       .repeatTimes "inner" (.var "n") [],
       .ifElse "choice" (.cmp .lt (.var "n") (.num 100)) [.simple "skip" .continueLoop]
         [.simple "leave" .breakLoop]],
     .simple "halt" .stopAll]

theorem brief_script_ends_restless :
    AllBrief restlessScript.commands ∧
    ∃ n ≤ mostStepsAll restlessScript.commands + 1,
      (Thread.start 1 restlessScript 0).EndsAfter
        (fun k => ({ store := Dict.empty.insert "n" k.toFloat }, 0.02)) n :=
  ⟨by decide, brief_script_ends restlessScript (by decide) 1 0 _⟩

end BlockStage
