import BlockStage.Proofs.Lifecycle
import BlockStage.Proofs.LoopControl
import BlockStage.Proofs.Passes

/-! # The guard against runaway programs

Whatever a program does, every tick comes to its end within its steps, and between two resets of the
counter no more steps are taken than a second allows. The step that would be one too many is not
taken: it is counted, the safety line is logged in its place, and the run ends.
-/
namespace BlockStage

namespace Engine

variable {e : Engine} {t : Thread} {dt : Float}

/-! ## The safety line -/

def safetyStops (e : Engine) : Nat := e.signals.count (.log safetyLine)

theorem safetyStops_of_same {e' : Engine} (same : e'.signals = e.signals) :
    e'.safetyStops = e.safetyStops := by
  rw [safetyStops, safetyStops, same]

theorem highlight_safetyStops (e : Engine) (block : Option String) :
    (e.highlight block).safetyStops = e.safetyStops :=
  List.count_cons_of_ne (by simp)

@[simp] theorem stop_safetyStops (e : Engine) : e.stop.safetyStops = e.safetyStops :=
  List.count_cons_of_ne (by simp)

theorem lit_safetyStops (e : Engine) (id : String) : (e.lit id).safetyStops = e.safetyStops := by
  unfold lit
  split
  · rfl
  · exact highlight_safetyStops e _

theorem report_safetyStops {line : String} (other : ∀ rest, line.toList ≠ 'S' :: 'a' :: rest) :
    (e.report line).safetyStops = e.safetyStops := by
  apply List.count_cons_of_ne
  intro same
  apply other "fety stop: too many operations/sec (possible infinite loop).".toList
  rw [Signal.log.inj same]
  rfl

theorem report_safetyLine (e : Engine) : (e.report safetyLine).safetyStops = e.safetyStops + 1 :=
  List.count_cons_self

theorem assign_signals (e : Engine) (name : String) (x : Float) :
    (e.assign name x).signals = e.signals := by
  unfold assign
  split <;> rfl

theorem stepInstruction_safetyStops (i : Instruction) :
    (e.stepInstruction t i dt).1.safetyStops = e.safetyStops := by
  cases i with
  | move _ => exact safetyStops_of_same (stepAction_signals _)
  | turn _ => exact safetyStops_of_same (stepAction_signals _)
  | wait _ => exact safetyStops_of_same (stepAction_signals _)
  | setVar name value =>
    exact (report_safetyStops (by simp [toString])).trans
      (safetyStops_of_same (assign_signals ..))
  | changeVar name delta =>
    exact (report_safetyStops (by simp [toString])).trans
      (safetyStops_of_same (assign_signals ..))
  | deleteVar name => exact report_safetyStops (by simp [toString])
  | broadcast m wait =>
    cases wait with
    | false => exact report_safetyStops (by simp [toString])
    | true =>
      simp only [stepInstruction, if_true, stepBroadcastWait]
      split
      · exact safetyStops_of_same (stepWaiting_signals _)
      · exact (safetyStops_of_same (stepWaiting_signals _)).trans
          (report_safetyStops (by simp [toString]))
  | breakLoop =>
    unfold stepInstruction stepBreak
    dsimp only
    split
    · exact report_safetyStops (by simp)
    · rfl
  | continueLoop =>
    unfold stepInstruction stepContinue
    dsimp only
    split
    · exact report_safetyStops (by simp)
    · rfl
  | stopAll => exact (stop_safetyStops _).trans (report_safetyStops (by simp))
  | stopThis => exact report_safetyStops (by simp)
  | unsupported => rfl

theorem stepCommand_safetyStops (c : Command) :
    (e.stepCommand t c dt).1.safetyStops = e.safetyStops := by
  have highlighted := lit_safetyStops e c.blockId
  unfold lit at highlighted
  unfold stepCommand
  dsimp only
  rw [← highlighted]
  generalize (if c.blockId.isEmpty = true then e else e.highlight (some c.blockId)) = e₀
  cases c with
  | simple id i => exact stepInstruction_safetyStops i
  | repeatTimes id times body =>
    dsimp only
    split <;> rfl
  | forever id body => rfl
  | ifThen id cond body =>
    dsimp only
    split <;> rfl
  | ifElse id cond yes no => rfl

/-- No step of a program logs the safety line. -/
theorem stepThread_safetyStops (e : Engine) (t : Thread) (dt : Float) :
    (e.stepThread t dt).1.safetyStops = e.safetyStops := by
  unfold stepThread
  split
  · rfl
  · split
    · rfl
    next c _ =>
      have same : (e.stepCommand t c dt).1.safetyStops = e.safetyStops :=
        stepCommand_safetyStops c
      split <;> simp_all

theorem beginTick_safetyStops (e : Engine) (now : Nat) :
    (e.beginTick now).safetyStops = e.safetyStops := by
  obtain ⟨_, _, begun⟩ := e.beginTick_eq now
  rw [begun]
  rfl

theorem Taken.after_safetyStops {e₀ : Engine} {vs : List Visit} {v : Visit}
    (taken : Taken e₀ vs e v) : v.after.safetyStops = e.safetyStops := by
  rw [safetyStops_of_same v.after_signals, stepThread_safetyStops, taken.counted]
  rfl

theorem Course.safetyStops {e₀ : Engine} {vs : List Visit} (h : Course e₀ vs e) :
    e.safetyStops = e₀.safetyStops := by
  induction h with
  | begun => rfl
  | pruned _ _ ih => exact ih
  | stepped taken _ _ ih => exact taken.after_safetyStops.trans ih

/-! ## The operations of a second -/

end Engine

theorem Visit.Due.after_counters {v : Visit} (due : v.Due) :
    v.after.limits = v.engine.limits ∧ v.after.opsThisSecond = v.engine.opsThisSecond := by
  rcases due.after_frame with ⟨_, e, quiet, after⟩ | ⟨_, e, scripts, quiet, _, after⟩
  · obtain ⟨_, _, _, rfl⟩ := quiet
    rw [after]
    exact ⟨rfl, rfl⟩
  · obtain ⟨_, _, _, rfl⟩ := quiet
    rw [after]
    exact ⟨rfl, rfl⟩

namespace Engine

variable {e : Engine}

theorem Taken.ops_eq {e₀ : Engine} {vs : List Visit} {v : Visit} (taken : Taken e₀ vs e v)
    (before : Course e₀ vs e) :
    v.engine.opsThisSecond = e₀.opsThisSecond + vs.length + 1 ∧
      v.engine.limits = e₀.limits := by
  rw [taken.counted]
  exact ⟨congrArg (· + 1) before.opsThisSecond, before.limits⟩

theorem Ends.ops_le {e₀ : Engine} {vs : List Visit} (h : Ends e₀ vs e) {v : Visit} (hv : v ∈ vs) :
    v.engine.opsThisSecond ≤ e₀.limits.maxOpsPerSecond := by
  obtain ⟨before, e', course, taken⟩ := h.taken hv
  have allowed := taken.allowed
  rwa [(taken.ops_eq course).2] at allowed

theorem Ends.room {e₀ : Engine} {vs : List Visit} (h : Ends e₀ vs e) :
    vs.length ≤ e₀.limits.maxOpsPerSecond - e₀.opsThisSecond ∧
      vs.length ≤ e₀.limits.maxStepsPerTick := by
  have last : ∀ {vs e v}, Course e₀ vs e → Taken e₀ vs e v →
      (vs ++ [v]).length ≤ e₀.limits.maxOpsPerSecond - e₀.opsThisSecond ∧
        (vs ++ [v]).length ≤ e₀.limits.maxStepsPerTick := by
    intro vs e v before taken
    obtain ⟨ops, limits⟩ := taken.ops_eq before
    have allowed := taken.allowed
    rw [limits] at allowed
    rw [List.length_append, List.length_singleton]
    exact ⟨by omega, taken.within⟩
  have along : ∀ {vs e}, Course e₀ vs e →
      vs.length ≤ e₀.limits.maxOpsPerSecond - e₀.opsThisSecond ∧
        vs.length ≤ e₀.limits.maxStepsPerTick := by
    intro vs e course
    induction course with
    | begun => simp
    | pruned _ _ ih => exact ih
    | stepped taken _ before => exact last before taken
  cases h with
  | going course => exact along course
  | finished _ course => exact along course
  | exceeded _ _ _ _ _ course => exact along course
  | halted taken _ course => exact last course taken

/-- A step that is due would be one too many, and the run ends in its place. -/
structure Trips (b e : Engine) : Prop where
  full : b.opsThisSecond = b.limits.maxOpsPerSecond
  due : ∃ t ∈ b.threads, t.finished = false ∧ t.bornTick < b.tickCount
  stopped : e = (b.countOp.report safetyLine).stop

theorem Trips.exceeds {b : Engine} (h : b.Trips e) :
    e.opsThisSecond = e.limits.maxOpsPerSecond + 1 := by
  rw [h.stopped]
  exact congrArg (· + 1) h.full

/-- A tick counts its steps and logs no safety line, or it trips. -/
theorem Ends.counts {e₀ : Engine} {vs : List Visit} (h : Ends e₀ vs e)
    (begun : e₀.opsThisSecond ≤ e₀.limits.maxOpsPerSecond) :
    e.limits = e₀.limits ∧
    (e.opsThisSecond = e₀.opsThisSecond + vs.length ∧ e.safetyStops = e₀.safetyStops ∨
      e.opsThisSecond = e₀.opsThisSecond + vs.length + 1 ∧
      e.safetyStops = e₀.safetyStops + 1 ∧ (e₀.behind vs).Trips e) := by
  have room := h.room.1
  cases h with
  | going course => exact ⟨course.limits, Or.inl ⟨course.opsThisSecond, course.safetyStops⟩⟩
  | @finished _ e none course =>
    refine ⟨course.limits, Or.inl ⟨course.opsThisSecond, ?_⟩⟩
    rw [stop_safetyStops, report_safetyStops (by simp)]
    exact course.safetyStops
  | @exceeded _ e t listed unfinished older _ full course =>
    refine ⟨course.limits, Or.inr ⟨congrArg (· + 1) course.opsThisSecond, ?_, ?_⟩⟩
    · rw [stop_safetyStops, report_safetyLine]
      exact congrArg (· + 1) course.safetyStops
    · have ops := course.opsThisSecond
      have limits := course.limits
      obtain ⟨threads, kept, same⟩ := course.since_step
      rw [same] at listed older full ops limits
      refine ⟨?_, ⟨t, kept.subset listed, unfinished, older⟩, ?_⟩
      · dsimp only [countOp] at full ops limits
        rw [limits] at full ⊢
        omega
      · rw [same]
        rfl
  | @halted vs e v taken _ course =>
    obtain ⟨ops, limits⟩ := taken.ops_eq course
    obtain ⟨kept, counted⟩ := taken.due.after_counters
    refine ⟨kept.trans limits, Or.inl ⟨?_, ?_⟩⟩
    · rw [counted, ops, List.length_append]
      rfl
    · rw [taken.after_safetyStops]
      exact course.safetyStops

/-- What the counter keeps to; so it fits 64 bits for every ceiling below `2 ^ 64 - 1`. -/
structure Measured (l : Limits) (e : Engine) : Prop where
  limits : e.limits = l
  ceiling : e.running = true → e.opsThisSecond ≤ l.maxOpsPerSecond
  counter : e.opsThisSecond ≤ l.maxOpsPerSecond + 1

theorem beginTick_ops (e : Engine) (now : Nat) :
    (e.beginTick now).opsThisSecond =
      if Time.nanosPerSecond ≤ now - e.windowStart then 0 else e.opsThisSecond := by
  unfold beginTick
  dsimp only
  split <;> rfl

/-- The counter begins anew with the operation. -/
def resets (e : Engine) : Operation → Bool
  | .start _ => e.ready
  | .tick now =>
    e.running && e.pending && decide (Time.nanosPerSecond ≤ now - e.windowStart)
  | _ => false

namespace Measured

variable {l : Limits}

theorem begun (h : e.Measured l) (running : e.running = true) (now : Nat) :
    (e.beginTick now).limits = l ∧ (e.beginTick now).opsThisSecond ≤ l.maxOpsPerSecond := by
  refine ⟨(beginTick_limits e now).trans h.limits, ?_⟩
  have ceiling := h.ceiling running
  rw [beginTick_ops]
  split
  · exact Nat.zero_le _
  · exact ceiling

theorem tick (h : e.Measured l) (now : Nat) : (e.tick now).1.Measured l := by
  rcases e.tick_cases now with ⟨_, _, idle⟩ | ⟨asked, e', ends, result⟩
  · rw [idle]
    exact h
  · obtain ⟨limits, begun⟩ := h.begun (Bool.and_eq_true_iff.mp asked).1 now
    have room := ends.room.1
    rw [← limits] at begun ⊢
    obtain ⟨kept, counted⟩ := ends.counts begun
    have measured : e'.Measured (e.beginTick now).limits := by
      rcases counted with ⟨ops, _⟩ | ⟨ops, _, trips⟩
      · exact ⟨kept, fun _ => by omega, by omega⟩
      · refine ⟨kept, fun runs => ?_, by omega⟩
        rw [trips.stopped] at runs
        cases runs
    rcases result with ⟨_, same⟩ | ⟨_, same⟩
    · rw [same]
      exact ⟨measured.limits, measured.ceiling, measured.counter⟩
    · rw [same]
      exact measured

theorem perform (h : e.Measured l) (op : Operation) : (e.perform op).Measured l := by
  cases op with
  | load p => exact ⟨h.limits, h.ceiling, h.counter⟩
  | bind s => exact ⟨h.limits, h.ceiling, h.counter⟩
  | start now =>
    change (e.start now).Measured l
    cases ready : e.ready with
    | false =>
      obtain ⟨line, same⟩ := start_of_not_ready ready now
      rw [same]
      exact ⟨h.limits, h.ceiling, h.counter⟩
    | true =>
      obtain ⟨p, line, _, _, same⟩ := start_of_ready ready now
      rw [same]
      exact ⟨h.limits, fun _ => Nat.zero_le _, Nat.zero_le _⟩
  | stop => exact ⟨h.limits, by simp [Engine.perform, stop, highlight], h.counter⟩
  | tick now => exact h.tick now

theorem performAll (h : e.Measured l) (ops : List Operation) : (e.performAll ops).Measured l := by
  induction ops generalizing e with
  | nil => exact h
  | cons op ops ih => exact ih (h.perform op)

theorem run (l : Limits) (ops : List Operation) :
    (({ limits := l } : Engine).performAll ops).Measured l := by
  have fresh : ({ limits := l } : Engine).Measured l :=
    ⟨rfl, fun _ => Nat.zero_le _, Nat.zero_le _⟩
  exact fresh.performAll ops

theorem visits_counted (h : e.Measured l) (op : Operation) :
    (e.visits op).length + (if e.resets op then 0 else e.opsThisSecond) ≤
        (e.perform op).opsThisSecond ∧
      (e.visits op).length ≤
        l.maxOpsPerSecond - (if e.resets op then 0 else e.opsThisSecond) := by
  cases op with
  | load p => simp [visits, resets, Engine.perform, load]
  | bind s => simp [visits, resets, Engine.perform, Engine.bind]
  | start now =>
    cases ready : e.ready with
    | false =>
      obtain ⟨line, same⟩ := start_of_not_ready ready now
      simp [visits, resets, ready, Engine.perform, same, report]
    | true => simp [visits, resets, ready]
  | stop => simp [visits, resets, Engine.perform, stop, highlight]
  | tick now =>
    rcases e.tick_cases now with ⟨asked, none, idle⟩ | ⟨asked, e', ends, result⟩
    · simp [none, resets, asked, Engine.perform, idle]
    · obtain ⟨limits, begun⟩ := h.begun (Bool.and_eq_true_iff.mp asked).1 now
      have room := ends.room.1
      have ops := e.beginTick_ops now
      have base : (if e.resets (.tick now) then 0 else e.opsThisSecond) =
          (e.beginTick now).opsThisSecond := by
        rw [ops]
        simp [resets, asked]
      have counted : (e.perform (.tick now)).opsThisSecond = e'.opsThisSecond := by
        rcases result with ⟨_, same⟩ | ⟨_, same⟩ <;> rw [Engine.perform, same]
      rw [← limits] at begun
      rw [base, counted, ← limits]
      rcases (ends.counts begun).2 with ⟨same, _⟩ | ⟨same, _⟩ <;> omega

theorem history_counted (h : e.Measured l) {ops : List Operation} (never : Never resets e ops) :
    (e.history ops).length ≤ l.maxOpsPerSecond - e.opsThisSecond := by
  induction ops generalizing e with
  | nil => exact Nat.zero_le _
  | cons op ops ih =>
    obtain ⟨first, later⟩ := never
    have rest := ih (h.perform op) later
    have counted := h.visits_counted op
    simp only [first, Bool.false_eq_true, if_false] at counted
    rw [history, List.length_append]
    omega

end Measured

end Engine

/-- What bounds a tick at the given time. -/
structure Engine.TickGuard (l : Limits) (e : Engine) (now : Nat) : Prop where
  ends : ∀ p, Pass.EndsIn (e.delta now) (e.openPass now) p ↔ p = e.tickPass now
  steps : (e.visits (.tick now)).length ≤ l.maxStepsPerTick
  counted : ∀ v ∈ e.visits (.tick now), v.engine.opsThisSecond ≤ l.maxOpsPerSecond
  trips : e.running = true → l.maxOpsPerSecond < (e.tick now).1.opsThisSecond →
    ((e.beginTick now).behind (e.visits (.tick now))).Trips (e.tick now).1 ∧
      (e.tick now).2 = .stopped ∧ (e.tick now).1.safetyStops = e.safetyStops + 1
  silent : (e.tick now).1.opsThisSecond ≤ l.maxOpsPerSecond ∨ e.running = false →
    (e.tick now).1.safetyStops = e.safetyStops

theorem Engine.Measured.tickGuard {l : Limits} {e : Engine} (h : e.Measured l) (now : Nat) :
    e.TickGuard l now := by
  rcases e.tick_cases now with ⟨asked, none, idle⟩ | ⟨asked, e', course, result⟩
  · refine ⟨e.endsIn_iff now, by simp [none], by simp [none], fun running exceeded => ?_,
      fun _ => ?_⟩
    · have ceiling := h.ceiling running
      rw [idle] at exceeded
      exact absurd ceiling (Nat.not_le.mpr exceeded)
    · rw [idle]
  · have running := (Bool.and_eq_true_iff.mp asked).1
    obtain ⟨limits, begun⟩ := h.begun running now
    rw [← limits] at begun ⊢
    obtain ⟨room, steps⟩ := course.room
    have told : (e.tick now).1.opsThisSecond = e'.opsThisSecond ∧
        (e.tick now).1.safetyStops = e'.safetyStops := by
      rcases result with ⟨_, same⟩ | ⟨_, same⟩ <;> rw [same] <;> exact ⟨rfl, rfl⟩
    refine ⟨e.endsIn_iff now, steps, fun v hv => course.ops_le hv, ?_, ?_⟩
    · intro _ exceeded
      rcases (course.counts begun).2 with ⟨ops, _⟩ | ⟨_, once, trips⟩
      · omega
      · rcases result with ⟨runs, _⟩ | ⟨_, same⟩
        · rw [trips.stopped] at runs
          cases runs
        · rw [beginTick_safetyStops] at once
          rw [same]
          exact ⟨trips, rfl, once⟩
    · intro allowed
      rw [told.2, ← beginTick_safetyStops e now]
      obtain ⟨kept, ⟨_, silent⟩ | ⟨_, _, trips⟩⟩ := course.counts begun
      · exact silent
      · have exceeds := trips.exceeds
        rw [kept] at exceeds
        rcases allowed with allowed | stopped
        · omega
        · rw [running] at stopped
          cases stopped

/-- In every run the counter keeps to its ceiling, every tick ends within its steps, and between two
resets there are no more steps than a second allows. The tick whose next step would be one too many
trips, and logs the safety line once. -/
theorem runaway_guard (l : Limits) (ops : List Engine.Operation) :
    let e := ({ limits := l } : Engine).performAll ops
    e.Measured l ∧ (∀ now, e.TickGuard l now) ∧
    ∀ op more, Engine.Never Engine.resets (e.perform op) more →
      (e.history (op :: more)).length ≤ l.maxOpsPerSecond := by
  intro e
  have measured : e.Measured l := Engine.Measured.run l ops
  refine ⟨measured, measured.tickGuard, ?_⟩
  intro op more never
  have first := measured.visits_counted op
  have rest := (measured.perform op).history_counted never
  rw [Engine.history, List.length_append]
  omega

end BlockStage
