import BlockStage.Proofs.Budget
import BlockStage.Proofs.RoundRobin
import BlockStage.Proofs.RunawayGuard

/-! # The operations of waiting threads

A step that makes no progress is counted as any other one is, so threads that do nothing but wait
can use up the operations of a second, if there are enough of them or enough ticks. A tick in which
nothing makes progress takes a single pass, and counts no more operations than it finds live
threads. These are the polls of a tick, and nothing less than more polls than a second has
operations lets waiting threads end the run.
-/
namespace BlockStage

namespace Pass

variable {dt : Float} {p q : Pass}

/-- After `n` turns, a pass that began as `p` has counted no more than `n` operations, and its
progress is that of a step. -/
structure Polls (p : Pass) (n : Nat) (q : Pass) : Prop where
  ops : q.engine.opsThisSecond ≤ p.engine.opsThisSecond + n
  progress : q.progressed = true → ∃ v ∈ q.visits, v.progress = true

theorem Polls.turn {n : Nat} (dt : Float) (polls : p.Polls n q) (going : q.ended = false)
    (running : q.engine.running = true) (i : Nat) :
    p.Polls (n + 1) (q.turn dt i) ∧
      ((q.turn dt i).ended = false → (q.turn dt i).engine.running = true) := by
  have turn : Turn dt q i (q.turn dt i) := turn_of_going going running i
  have ops := polls.ops
  generalize q.turn dt i = r at turn ⊢
  cases turn with
  | skipped => exact ⟨⟨Nat.le_succ_of_le ops, polls.progress⟩, fun _ => running⟩
  | spent => exact ⟨⟨Nat.le_succ_of_le ops, polls.progress⟩, fun open' => by cases open'⟩
  | exceeded => exact ⟨⟨Nat.succ_le_succ ops, polls.progress⟩, fun open' => by cases open'⟩
  | @stepped v due counted =>
    have once : v.after.opsThisSecond = q.engine.opsThisSecond + 1 := by
      rw [due.after_counters.2, counted]
      rfl
    refine ⟨⟨?_, fun progressed => ?_⟩, fun open' => by simpa using open'⟩
    · dsimp only
      omega
    · rcases Bool.or_eq_true_iff.mp progressed with earlier | now
      · obtain ⟨w, hw, progress⟩ := polls.progress earlier
        exact ⟨w, List.mem_cons_of_mem v hw, progress⟩
      · exact ⟨v, List.mem_cons_self, now⟩

theorem round_polls (dt : Float) (going : p.ended = false) (running : p.engine.running = true) :
    p.Polls p.engine.threads.length (p.round dt) := by
  obtain ⟨cut, whole⟩ := round_induction dt
    (I := fun i q => q.engine.running = true ∧ p.Polls i q)
    (E := p.Polls p.engine.threads.length) going
    ⟨running, Nat.le_refl _, fun progressed => by cases progressed⟩
    (fun i q inside open' ⟨runs, polls⟩ => by
      obtain ⟨next, still⟩ := polls.turn dt open' runs i
      exact ⟨fun _ => ⟨next.ops.trans (Nat.add_le_add_left inside _), next.progress⟩,
        fun more => ⟨still more, next⟩⟩)
  cases status : (p.round dt).ended with
  | true => exact cut status
  | false => exact (whole status).2

/-- A tick in which nothing makes progress counts one operation at most for each live thread. -/
theorem EndsIn.ops_le (ends : EndsIn dt p q) (waiting : ∀ v ∈ q.visits, v.progress = false) :
    q.engine.opsThisSecond ≤ p.engine.opsThisSecond + p.engine.liveThreads.length := by
  cases ends with
  | closed => exact Nat.le_add_right _ _
  | finished => exact Nat.le_add_right _ _
  | still going => exact (round_polls (p := p.pruned) _ going.1 going.2.1).ops
  | again going _ progressed rest =>
    obtain ⟨v, hv, progress⟩ :=
      (round_polls (p := p.pruned) dt going.1 going.2.1).progress progressed
    obtain ⟨more, visits, _⟩ := rest.adds
    have none := waiting v (visits ▸ List.mem_append_right more hv)
    rw [progress] at none
    cases none

end Pass

namespace Engine

variable {l : Limits} {e : Engine}

/-! ## The polls of a run -/

/-- The polls of an operation: a tick has one for each thread that is live at its beginning, as far
as its steps go. -/
def polled (e : Engine) : Operation → Nat
  | .tick _ => min e.liveThreads.length e.limits.maxStepsPerTick
  | _ => 0

def polls (e : Engine) : List Operation → Nat
  | [] => 0
  | op :: ops => e.polled op + (e.perform op).polls ops

/-- An operation in which nothing makes progress counts no more than its polls, behind a reset if
there is one. -/
theorem perform_ops_le {op : Operation} (waiting : ∀ v ∈ e.visits op, v.progress = false) :
    (e.perform op).opsThisSecond ≤
      (if e.resets op then 0 else e.opsThisSecond) + e.polled op := by
  cases op with
  | load p => exact Nat.le_refl _
  | bind s => exact Nat.le_refl _
  | stop => exact Nat.le_refl _
  | start now =>
    cases ready : e.ready with
    | false =>
      obtain ⟨line, same⟩ := start_of_not_ready ready now
      simp [Engine.perform, resets, polled, ready, same, report]
    | true =>
      obtain ⟨p, line, _, _, same⟩ := start_of_ready ready now
      simp [Engine.perform, same]
  | tick now =>
    cases asked : e.running && e.pending with
    | false => simp [Engine.perform, tick, resets, polled, asked]
    | true =>
      obtain ⟨running, pending⟩ := Bool.and_eq_true_iff.mp asked
      obtain ⟨visits, result⟩ := tick_of_running running pending now
      have ends := (e.endsIn_iff now _).mpr rfl
      have once := ends.ops_le fun v hv => waiting v (by rw [visits, List.mem_reverse]; exact hv)
      have steps :=
        (Pass.rounds_accounts (e.delta now) e.limits.maxStepsPerTick (e.openPass now)).ops
      have counted : (e.perform (.tick now)).opsThisSecond =
          (e.tickPass now).engine.opsThisSecond := by
        rcases result with ⟨_, same⟩ | ⟨_, same⟩ <;> rw [Engine.perform, same]
      have base : (if e.resets (.tick now) then 0 else e.opsThisSecond) =
          (e.openPass now).engine.opsThisSecond := by
        simp [openPass, beginTick_ops, resets, asked]
      have live : (e.openPass now).engine.liveThreads = e.liveThreads := by
        simp [openPass, liveThreads]
      rw [counted, base, polled]
      rw [live] at once
      change (e.tickPass now).engine.opsThisSecond + _ = _ + e.limits.maxStepsPerTick at steps
      omega

theorem Measured.perform_silent (h : e.Measured l) {op : Operation}
    (allowed : (e.perform op).opsThisSecond ≤ l.maxOpsPerSecond) :
    (e.perform op).safetyStops = e.safetyStops := by
  cases op with
  | load p => rfl
  | bind s => rfl
  | stop => exact stop_safetyStops e
  | start now =>
    change (e.start now).safetyStops = e.safetyStops
    unfold start
    split
    · split
      · exact report_safetyStops (by simp)
      · exact report_safetyStops (by simp [toString])
    · exact report_safetyStops (by simp)
  | tick now => exact (h.tickGuard now).silent (Or.inl allowed)

/-- As long as nothing makes progress in the second that is counted, the counter keeps to the polls,
and while these are within its ceiling, no safety line is logged. -/
theorem Measured.waiting (h : e.Measured l) {ops : List Operation} (never : Never resets e ops)
    (waiting : ∀ v ∈ e.history ops, v.progress = false) :
    (e.performAll ops).opsThisSecond ≤ e.opsThisSecond + e.polls ops ∧
    (e.opsThisSecond + e.polls ops ≤ l.maxOpsPerSecond →
      (e.performAll ops).safetyStops = e.safetyStops) := by
  induction ops generalizing e with
  | nil => exact ⟨Nat.le_refl _, fun _ => rfl⟩
  | cons op ops ih =>
    obtain ⟨kept, later⟩ := never
    have first := perform_ops_le fun v hv => waiting v (List.mem_append_left _ hv)
    rw [kept, if_neg (by simp)] at first
    obtain ⟨counted, silent⟩ := ih (h.perform op) later
      fun v hv => waiting v (List.mem_append_right _ hv)
    change ((e.perform op).performAll ops).opsThisSecond ≤ _ ∧
      (_ → ((e.perform op).performAll ops).safetyStops = _)
    rw [polls]
    refine ⟨by omega, fun allowed => ?_⟩
    rw [silent (by omega), h.perform_silent (by omega)]

end Engine

open Engine (Never resets)

/-- While no step since the counter has begun anew makes progress, the counter is at most the number
of polls, and no safety line is logged unless there are more of them than operations in a second. A
tick polls a thread once, whatever it waits for. -/
theorem waiting_trips_beyond_polls (l : Limits) (ops : List Engine.Operation)
    (op : Engine.Operation) (more : List Engine.Operation) :
    let e := ({ limits := l } : Engine).performAll ops
    e.resets op = true → Never resets (e.perform op) more →
    (∀ v ∈ e.history (op :: more), v.progress = false) →
    (e.performAll (op :: more)).opsThisSecond ≤ e.polls (op :: more) ∧
    (e.polls (op :: more) ≤ l.maxOpsPerSecond →
      (e.performAll (op :: more)).safetyStops = e.safetyStops) := by
  intro e begins never waiting
  have measured : e.Measured l := Engine.Measured.run l ops
  have first := Engine.perform_ops_le fun v hv => waiting v (List.mem_append_left _ hv)
  rw [if_pos begins] at first
  obtain ⟨counted, silent⟩ := (measured.perform op).waiting never
    fun v hv => waiting v (List.mem_append_right _ hv)
  change ((e.perform op).performAll more).opsThisSecond ≤ _ ∧
    (_ → ((e.perform op).performAll more).safetyStops = _)
  rw [Engine.polls]
  refine ⟨by omega, fun allowed => ?_⟩
  rw [silent (by omega), measured.perform_silent (by omega)]

def Program.waitingPair : Program where
  scripts := [⟨"a", [.simple "" (.wait (.num 5))]⟩, ⟨"b", [.simple "" (.wait (.num 5))]⟩]
  handlers := .empty

/-- Four polls in two ticks are as many as four operations in a second allow. -/
theorem waiting_trips_beyond_polls_waitingPair :
    let e := ({ limits := { maxOpsPerSecond := 4 } } : Engine).performAll
      [.load .waitingPair, .bind {}]
    let more : List Engine.Operation := [.tick 16000000, .tick 32000000]
    e.resets (.start 0) = true ∧ Never resets (e.perform (.start 0)) more ∧
    (∀ v ∈ e.history (.start 0 :: more), v.progress = false) ∧ e.polls (.start 0 :: more) = 4 ∧
    (e.performAll (.start 0 :: more)).opsThisSecond ≤ 4 ∧
    (e.performAll (.start 0 :: more)).safetyStops = e.safetyStops := by
  intro e more
  have begins : e.resets (.start 0) = true := rfl
  have never : Never resets (e.perform (.start 0)) more :=
    ⟨by decide +kernel, by decide +kernel, trivial⟩
  have waiting : ∀ v ∈ e.history (.start 0 :: more), v.progress = false := by
    decide +kernel
  have polls : e.polls (.start 0 :: more) = 4 := by decide +kernel
  obtain ⟨counted, silent⟩ := waiting_trips_beyond_polls _ _ _ more begins never waiting
  exact ⟨begins, never, waiting, polls, polls ▸ counted, silent (by rw [polls])⟩

/-- With one operation in a second, a single poll of the first thread uses it up, and the run is
ended in place of the poll of the second one. -/
theorem waiting_pair_trips :
    let e := ({ limits := { maxOpsPerSecond := 1 } } : Engine).performAll
      [.load .waitingPair, .bind {}]
    let more : List Engine.Operation := [.tick 16000000]
    e.resets (.start 0) = true ∧ Never resets (e.perform (.start 0)) more ∧
    (e.history (.start 0 :: more)).map Visit.progress = [false] ∧
    (e.performAll (.start 0 :: more)).safetyStops = e.safetyStops + 1 := by
  intro e more
  exact ⟨rfl, ⟨by decide +kernel, trivial⟩, by decide +kernel, by decide +kernel⟩

end BlockStage
