import BlockStage.Proofs.Lockstep

/-! # The course of a tick

A tick takes steps for as long as the run goes on, the steps of the tick last and the second has
operations left. `Course` lists the ways to go on, and `Ends` the four ways to leave the tick. What
a tick can do is read off these, and not off the passes over the threads.
-/
namespace BlockStage

/-- The line that is logged in place of the step that would be one too many. -/
def Engine.safetyLine : String := "Safety stop: too many operations/sec (possible infinite loop)."

/-- A step leaves the list of threads to the scheduler, unless it ends the run or its command is a
broadcast. -/
theorem Engine.Effect.spawns {e e' : Engine} {t t' : Thread} {dt : Float} {progress : Bool}
    (h : Effect e t dt e' t' progress) :
    (∃ e₁, e.Quiet e₁ ∧ e' = e₁.stop) ∨ e.Quiet e' ∨
    ∃ e₁ id m wait, e.Quiet e₁ ∧ t.current? = some (.simple id (.broadcast m wait)) ∧
      e' = e₁.spawn (e.called m) := by
  cases h with
  | empty => exact Or.inr (Or.inl (.refl e))
  | closed => exact Or.inr (Or.inl (.refl e))
  | sent cur quiet => exact Or.inr (Or.inr ⟨_, _, _, _, quiet, cur, rfl⟩)
  | called cur _ _ quiet => exact Or.inr (Or.inr ⟨_, _, _, _, quiet, cur, rfl⟩)
  | halted _ quiet => exact Or.inl ⟨_, quiet, rfl⟩
  | passed _ _ quiet | entered _ _ quiet | acted _ _ quiet | broke _ _ quiet
  | continued _ _ quiet => exact Or.inr (Or.inl quiet)
  | acting _ _ _ quiet | unheard _ _ _ quiet | polled _ _ _ quiet | resumed _ _ _ quiet =>
    exact Or.inr (Or.inl quiet)
  | ended _ quiet => exact Or.inr (Or.inl quiet)

namespace Visit

/-- The threads behind a step that does not end the run: its own is put back, and those for the
given scripts come last. -/
def grown (v : Visit) (scripts : List Script) : List Thread :=
  v.engine.threads.set v.position v.stepped ++
    Engine.startThreads v.engine.tickCount v.engine.nextThreadId scripts

/-- The scripts that a step starts: the handlers of the message that it broadcasts, or none. -/
def Starts (v : Visit) (scripts : List Script) : Prop :=
  scripts = [] ∨ ∃ id m wait, v.thread.current? = some (.simple id (.broadcast m wait)) ∧
    scripts = v.engine.called m

/-- Besides variables, actor and signals, a step changes the threads and nothing else, or it ends
the run. -/
theorem Due.after_frame {v : Visit} (due : v.Due) :
    (v.after.running = false ∧ ∃ e, v.engine.Quiet e ∧ v.after = e.stop) ∨
    (v.after.running = true ∧ ∃ e scripts, v.engine.Quiet e ∧ v.Starts scripts ∧
      v.after = { e with
        threads := v.grown scripts
        nextThreadId := v.engine.nextThreadId + scripts.length }) := by
  have inside : v.position < v.engine.threads.length :=
    (List.getElem?_eq_some_iff.mp due.listed).1
  have goes : ∀ {e scripts}, v.engine.Quiet e →
      (v.engine.stepThread v.thread v.dt).1 = e.spawn scripts →
      v.after.running = true ∧ v.after = { e with
        threads := v.grown scripts
        nextThreadId := v.engine.nextThreadId + scripts.length } := by
    intro e scripts quiet stepped
    have runs : (e.spawn scripts).running = true := quiet.running.trans due.running
    have after : v.after = { e.spawn scripts with
        threads := (e.spawn scripts).threads.set v.position v.stepped } := by
      simp [after, Engine.stepAt, stepped, runs, Visit.stepped]
    constructor
    · rw [after]
      exact runs
    · obtain ⟨_, _, _, rfl⟩ := quiet
      rw [after, grown, ← List.set_append_left _ _ inside]
      rfl
  rcases v.effect.spawns with ⟨e, quiet, stepped⟩ | quiet | ⟨e, id, m, wait, quiet, cur, stepped⟩
  · have after : v.after = e.stop := by
      simp [after, Engine.stepAt, stepped, Engine.stop, Engine.highlight]
    refine Or.inl ⟨?_, e, quiet, after⟩
    rw [after]
    rfl
  · obtain ⟨runs, after⟩ := goes quiet (Engine.spawn_nil _).symm
    exact Or.inr ⟨runs, _, [], quiet, Or.inl rfl, after⟩
  · obtain ⟨runs, after⟩ := goes quiet stepped
    exact Or.inr ⟨runs, e, _, quiet, Or.inr ⟨id, m, wait, cur, rfl⟩, after⟩

theorem Due.after_of_running {v : Visit} (due : v.Due) (runs : v.after.running = true) :
    ∃ e scripts, v.engine.Quiet e ∧ v.Starts scripts ∧ v.after = { e with
      threads := v.grown scripts
      nextThreadId := v.engine.nextThreadId + scripts.length } := by
  rcases due.after_frame with ⟨stopped, _⟩ | ⟨_, frame⟩
  · rw [runs] at stopped
    cases stopped
  · exact frame

end Visit

namespace Engine

def countOp (e : Engine) : Engine := { e with opsThisSecond := e.opsThisSecond + 1 }

def prune (e : Engine) : Engine := { e with threads := e.liveThreads }

/-- What has been checked and counted before the step `v`, in a tick that began with `e₀` and that
came to `e` by the steps `vs`. -/
structure Taken (e₀ : Engine) (vs : List Visit) (e : Engine) (v : Visit) : Prop where
  due : v.Due
  counted : v.engine = e.countOp
  allowed : v.engine.opsThisSecond ≤ v.engine.limits.maxOpsPerSecond
  within : vs.length < e₀.limits.maxStepsPerTick

/-- The engines that a tick comes to while the run goes on, with the steps that led there. -/
inductive Course (e₀ : Engine) : List Visit → Engine → Prop where
  | begun : Course e₀ [] e₀
  | pruned {vs e} (some : e.liveThreads ≠ []) (h : Course e₀ vs e) : Course e₀ vs e.prune
  | stepped {vs e v} (taken : Taken e₀ vs e v) (runs : v.after.running = true)
      (h : Course e₀ vs e) : Course e₀ (vs ++ [v]) v.after

/-- The engine that a tick leaves, with all of its steps. -/
inductive Ends (e₀ : Engine) : List Visit → Engine → Prop where
  | going {vs e} (h : Course e₀ vs e) : Ends e₀ vs e
  | finished {vs e} (none : e.liveThreads = []) (h : Course e₀ vs e) :
      Ends e₀ vs (e.prune.report "All scripts finished.").stop
  | exceeded {vs e t} (listed : t ∈ e.threads) (unfinished : t.finished = false)
      (older : t.bornTick < e.tickCount) (within : vs.length < e₀.limits.maxStepsPerTick)
      (full : e.limits.maxOpsPerSecond < e.countOp.opsThisSecond) (h : Course e₀ vs e) :
      Ends e₀ vs (e.countOp.report safetyLine).stop
  | halted {vs e v} (taken : Taken e₀ vs e v) (stops : v.after.running = false)
      (h : Course e₀ vs e) : Ends e₀ (vs ++ [v]) v.after

namespace Course

variable {e₀ e : Engine} {vs : List Visit}

theorem frame (h : Course e₀ vs e) : ∃ store sprite signals threads next, e = { e₀ with
    store := store, sprite := sprite, signals := signals, threads := threads, nextThreadId := next
    opsThisSecond := e₀.opsThisSecond + vs.length } := by
  induction h with
  | begun => exact ⟨_, _, _, _, _, rfl⟩
  | pruned _ _ ih =>
    obtain ⟨_, _, _, _, _, rfl⟩ := ih
    exact ⟨_, _, _, _, _, rfl⟩
  | @stepped vs e v taken runs _ ih =>
    obtain ⟨_, _, _, _, _, rfl⟩ := ih
    obtain ⟨e', scripts, quiet, _, after⟩ := taken.due.after_of_running runs
    obtain ⟨_, _, _, rfl⟩ := quiet
    rw [after, taken.counted, List.length_append]
    exact ⟨_, _, _, _, _, rfl⟩

theorem running (h : Course e₀ vs e) : e.running = e₀.running := by
  obtain ⟨_, _, _, _, _, rfl⟩ := h.frame
  rfl

theorem limits (h : Course e₀ vs e) : e.limits = e₀.limits := by
  obtain ⟨_, _, _, _, _, rfl⟩ := h.frame
  rfl

theorem windowStart (h : Course e₀ vs e) : e.windowStart = e₀.windowStart := by
  obtain ⟨_, _, _, _, _, rfl⟩ := h.frame
  rfl

theorem opsThisSecond (h : Course e₀ vs e) :
    e.opsThisSecond = e₀.opsThisSecond + vs.length := by
  obtain ⟨_, _, _, _, _, rfl⟩ := h.frame
  rfl

theorem after_running (h : Course e₀ vs e) : ∀ v ∈ vs, v.after.running = true := by
  induction h with
  | begun =>
    intro v hv
    cases hv
  | pruned _ _ ih => exact ih
  | stepped _ runs _ ih =>
    intro w hw
    rcases List.mem_append.mp hw with hw | hw
    · exact ih w hw
    · rw [List.mem_singleton.mp hw]
      exact runs

theorem threads_ne_nil (h : Course e₀ vs e) (some : e₀.threads ≠ []) : e.threads ≠ [] := by
  induction h with
  | begun => exact some
  | pruned some _ _ => exact some
  | @stepped vs e v taken runs _ _ =>
    obtain ⟨e', scripts, _, _, after⟩ := taken.due.after_of_running runs
    have listed := taken.due.mem
    rw [after]
    intro none
    have length := congrArg List.length none
    have positive := List.length_pos_of_mem listed
    simp only [Visit.grown, List.length_append, List.length_set, List.length_nil] at length
    omega

end Course

theorem Ends.taken {e₀ e : Engine} {vs : List Visit} (h : Ends e₀ vs e) {v : Visit}
    (hv : v ∈ vs) : ∃ before e', Course e₀ before e' ∧ Taken e₀ before e' v := by
  have along : ∀ {vs e}, Course e₀ vs e → v ∈ vs →
      ∃ before e', Course e₀ before e' ∧ Taken e₀ before e' v := by
    intro vs e course hv
    induction course with
    | begun => cases hv
    | pruned _ _ ih => exact ih hv
    | stepped taken _ before ih =>
      rcases List.mem_append.mp hv with earlier | last
      · exact ih earlier
      · rw [List.mem_singleton.mp last]
        exact ⟨_, _, before, taken⟩
  cases h with
  | going course => exact along course hv
  | finished _ course => exact along course hv
  | exceeded _ _ _ _ _ course => exact along course hv
  | halted taken _ course =>
    rcases List.mem_append.mp hv with earlier | last
    · exact along course earlier
    · rw [List.mem_singleton.mp last]
      exact ⟨_, _, course, taken⟩

/-- The engine behind the last of the steps, or the one that the tick began with. -/
def behind (e₀ : Engine) (vs : List Visit) : Engine := (vs.getLast?.map Visit.after).getD e₀

@[simp] theorem behind_snoc (e₀ : Engine) (vs : List Visit) (v : Visit) :
    e₀.behind (vs ++ [v]) = v.after := by
  simp [behind]

theorem Course.since_step {e₀ e : Engine} {vs : List Visit} (h : Course e₀ vs e) :
    ∃ threads, threads.Sublist (e₀.behind vs).threads ∧
      e = { e₀.behind vs with threads := threads } := by
  induction h with
  | begun => exact ⟨_, .refl _, rfl⟩
  | pruned _ _ ih =>
    obtain ⟨threads, sub, same⟩ := ih
    refine ⟨threads.filter fun t => !t.finished, List.filter_sublist.trans sub, ?_⟩
    rw [prune, liveThreads, same]
  | stepped =>
    rw [behind_snoc]
    exact ⟨_, .refl _, rfl⟩

end Engine

/-! ## Ticks take their course -/

namespace Pass

open Engine (Course Ends Taken)

variable {e₀ : Engine} {p : Pass} {dt : Float}

/-- The pass has come to where it is by the course of a tick that began with `e₀`. -/
structure Follows (e₀ : Engine) (p : Pass) : Prop where
  ends : Ends e₀ p.visits.reverse p.engine
  course : p.ended = false → Course e₀ p.visits.reverse p.engine ∧
    p.visits.length + p.left = e₀.limits.maxStepsPerTick

theorem visit_follows (h : p.Follows e₀) (running : e₀.running = true) (going : p.ended = false)
    (left : p.left ≠ 0) {i : Nat} {t : Thread} (listed : p.engine.threads[i]? = some t)
    (unfinished : t.finished = false) (older : t.bornTick < p.engine.tickCount)
    (allowed : p.engine.countOp.opsThisSecond ≤ p.engine.limits.maxOpsPerSecond) :
    (p.count.visit dt i t).Follows e₀ := by
  obtain ⟨course, steps⟩ := h.course going
  let v : Visit := ⟨p.engine.countOp, i, t, dt, (p.engine.countOp.stepThread t dt).2.2⟩
  have due : v.Due := ⟨course.running.trans running, listed, unfinished, older, rfl⟩
  have taken : Taken e₀ p.visits.reverse p.engine v := by
    refine ⟨due, rfl, allowed, ?_⟩
    rw [List.length_reverse]
    omega
  have visits : (p.count.visit dt i t).visits.reverse = p.visits.reverse ++ [v] := by
    rw [visit_eq]
    exact List.reverse_cons
  have engine : (p.count.visit dt i t).engine = v.after := by
    rw [visit_eq]
    rfl
  have ended : (p.count.visit dt i t).ended = !v.after.running := by
    rw [visit_eq]
    change (p.ended || !v.after.running) = !v.after.running
    rw [going, Bool.false_or]
  constructor
  · rw [visits, engine]
    cases runs : v.after.running with
    | true => exact .going (.stepped taken runs course)
    | false => exact .halted taken runs course
  · intro open'
    have runs : v.after.running = true := by
      rw [ended] at open'
      simpa using open'
    constructor
    · rw [visits, engine]
      exact .stepped taken runs course
    · rw [← List.length_reverse, visits, visit_eq, List.length_append, List.length_reverse]
      change p.visits.length + 1 + (p.left - 1) = _
      omega

theorem turn_follows (h : p.Follows e₀) (running : e₀.running = true) (i : Nat) :
    (p.turn dt i).Follows e₀ := by
  unfold turn
  split
  · exact h
  next open' =>
    have going : p.ended = false := by simpa using open'
    split
    · exact h
    next t listed =>
      split
      · exact h
      next eligible =>
        simp only [Bool.or_eq_true, decide_eq_true_eq, not_or, Bool.not_eq_true,
          Nat.not_le] at eligible
        split
        · exact ⟨h.ends, by simp⟩
        next left =>
          obtain ⟨course, steps⟩ := h.course going
          have within : p.visits.reverse.length < e₀.limits.maxStepsPerTick := by
            rw [List.length_reverse]
            omega
          dsimp only
          split
          next full =>
            have listed := List.mem_of_getElem? listed
            exact ⟨.exceeded listed eligible.1 eligible.2 within full course, by simp⟩
          next allowed =>
            exact visit_follows h running going left listed eligible.1 eligible.2
              (Nat.le_of_not_lt allowed)

theorem round_follows (h : p.Follows e₀) (running : e₀.running = true) :
    (p.round dt).Follows e₀ := by
  have fold : ∀ (positions : List Nat) (q : Pass), q.Follows e₀ →
      (positions.foldl (turn dt) q).Follows e₀ := by
    intro positions
    induction positions with
    | nil => intro q hq; exact hq
    | cons i positions ih => intro q hq; exact ih _ (turn_follows hq running i)
  exact fold _ _ ⟨h.ends, h.course⟩

theorem rounds_follows (h : p.Follows e₀) (running : e₀.running = true) (fuel : Nat) :
    (rounds dt fuel p).Follows e₀ := by
  induction fuel generalizing p with
  | zero => exact h
  | succ fuel ih =>
    unfold rounds
    dsimp only
    split
    · exact h
    next going =>
      simp only [Bool.or_eq_true, Bool.not_eq_true', decide_eq_true_eq, not_or,
        Bool.not_eq_true] at going
      obtain ⟨course, steps⟩ := h.course going.1.1
      split
      next none =>
        exact ⟨.finished (by simpa using none) course, by simp⟩
      next some =>
        have pruned : Course e₀ p.visits.reverse p.engine.prune :=
          .pruned (by simpa using some) course
        have next : (round dt { p with engine := p.engine.prune }).Follows e₀ :=
          round_follows ⟨.going pruned, fun _ => ⟨pruned, steps⟩⟩ running
        split
        · exact ih next
        · exact next

end Pass

namespace Engine

variable {e : Engine}

def openPass (e : Engine) (now : Nat) : Pass :=
  { engine := e.beginTick now, left := e.limits.maxStepsPerTick }

theorem beginTick_limits (e : Engine) (now : Nat) : (e.beginTick now).limits = e.limits := by
  obtain ⟨_, _, begun⟩ := e.beginTick_eq now
  rw [begun]

theorem tickPass_ends (running : e.running = true) (now : Nat) :
    Ends (e.beginTick now) (e.tickPass now).visits.reverse (e.tickPass now).engine := by
  have begun : (e.openPass now).Follows (e.beginTick now) := by
    refine ⟨.going .begun, fun _ => ⟨.begun, ?_⟩⟩
    rw [beginTick_limits]
    exact Nat.zero_add _
  exact (Pass.rounds_follows begun (by simpa using running) _).ends

end Engine

end BlockStage
