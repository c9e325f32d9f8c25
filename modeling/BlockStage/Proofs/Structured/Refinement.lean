import BlockStage.Proofs.Budget
import BlockStage.Proofs.Decimal.Shortest
import BlockStage.Proofs.Structured.Lone
import BlockStage.Proofs.Structured.Simulation

/-! # Structured control in an engine

An engine that runs a single script of sequential commands ends the run with the outcome, the store
and the trace of the semantics, however many steps a tick takes, or runs without end where the
semantics has no outcome.
-/
namespace BlockStage

open Structured

/-- The signals with which a run ends, the oldest first. -/
def Structured.closing : Outcome → List Signal
  | .stopped true => [.highlight none]
  | _ => [.log "All scripts finished.", .highlight none]

theorem Structured.told_prefix {begun told τ : List Signal} (since : begun <:+ told)
    (until' : told <:+ τ.reverse ++ begun) : ∃ ρ, ρ <+: τ ∧ told = ρ.reverse ++ begun := by
  obtain ⟨r, rfl⟩ := since
  obtain ⟨u, hu⟩ := until'
  rw [← List.append_assoc] at hu
  have parts : u ++ r = τ.reverse := List.append_cancel_right hu
  refine ⟨r.reverse, ⟨u.reverse, ?_⟩, by simp⟩
  rw [← List.reverse_append, parts, List.reverse_reverse]

namespace Engine

/-- A counted loop has as many iterations as its number rounded down, but none if that is negative,
and at most as many as 64 bits can count. -/
theorem loopCount_eq_floor {x : Float} {negative : Bool} {b : Decimal.Binary}
    (h : Decimal.shape x = .finite negative b) :
    let magnitude : ℚ := b.significand * 2 ^ b.exponent
    (loopCount x : ℤ) = min (max 0 ⌊if negative then -magnitude else magnitude⌋) (2 ^ 64 - 1) := by
  intro magnitude
  have nonneg : 0 ≤ magnitude := mul_nonneg (Nat.cast_nonneg _) (Decimal.two_zpow_pos _).le
  rw [loopCount, h]
  cases negative with
  | true =>
    have none : ⌊-magnitude⌋ ≤ 0 := Int.floor_nonpos (neg_nonpos.mpr nonneg)
    rw [if_pos rfl, max_eq_left none]
    rfl
  | false =>
    obtain ⟨low, high⟩ := b.floorAt_bounds 0
    rw [zpow_zero, mul_one] at low high
    have floor : ⌊magnitude⌋ = b.floorAt 0 :=
      Int.floor_eq_iff.mpr ⟨by exact_mod_cast low, by exact_mod_cast high⟩
    have limit : Word.limit64 = 2 ^ 64 := rfl
    rw [if_neg Bool.false_ne_true, floor]
    dsimp only
    omega

variable {l : Limits} {t : Thread} {x : Fiber} {e : Engine}

theorem ticks_lone (h : e.Lone l t x) (pending : e.pending = true) {times : Nat → Nat}
    (ceiling : ∀ n, (e.ticks times n).opsThisSecond ≤ l.maxOpsPerSecond) (n : Nat) :
    (e.ticks times n).Takes l t x (n * l.maxStepsPerTick) ∧
      ((e.ticks times n).running = true → (e.ticks times n).pending = true) := by
  induction n with
  | zero =>
    rw [Nat.zero_mul]
    exact ⟨.all h (by simp), fun _ => pending⟩
  | succ n ih =>
    obtain ⟨taken, asked⟩ := ih
    have more : (n + 1) * l.maxStepsPerTick = l.maxStepsPerTick + n * l.maxStepsPerTick := by
      rw [Nat.succ_mul, Nat.add_comm]
    rw [more]
    cases taken with
    | all lone unfinished =>
      obtain ⟨takes, pending'⟩ := tick_lone lone (asked lone.running) (times n)
      exact ⟨takes.append unfinished, pending'⟩
    | some k le stopped =>
      rw [ticks_of_stopped stopped.running (Nat.le_succ n)]
      exact ⟨.some k (by omega) stopped, asked⟩
    | toomany exceeded => exact absurd exceeded (Nat.not_lt.mpr (ceiling n))

theorem start_lone {script : Script} {handlers : Dict (List Script)} {actor : Sprite}
    (loaded : e.program = some ⟨[script], handlers⟩) (bound : e.sprite = some actor)
    (sequential : ∀ c ∈ Command.preorderList script.commands, c.isSequential = true) (now : Nat) :
    (e.start now).Lone e.limits (Thread.start e.nextThreadId script e.tickCount)
      (Fiber.start script.commands e.store (e.start now).signals) ∧
    (e.start now).pending = true := by
  unfold start
  rw [loaded, bound]
  refine ⟨⟨rfl, rfl, rfl, rfl, rfl, Nat.le_refl _, rfl, ?_⟩, rfl⟩
  intro f hf
  rw [Fiber.start, List.mem_singleton] at hf
  rw [hf]
  exact sequential

section Outcome

variable {commands : List Command} {s₀ : Store} {begun : List Signal}

theorem Stopped.shows {o : Outcome} {s : Store} {τ : List Signal} {frames : List Frame}
    (h : e.Stopped ⟨s, τ.reverse ++ begun, frames, o.halts⟩) :
    e.running = false ∧ e.store = s ∧ e.signals = (τ ++ closing o).reverse ++ begun := by
  have farewell :
      Fiber.farewell ⟨s, τ.reverse ++ begun, frames, o.halts⟩ = (closing o).reverse := by
    cases o with
    | stopped all => cases all <;> rfl
    | _ => rfl
  refine ⟨h.running, h.store, ?_⟩
  rw [h.signals, farewell]
  simp

theorem Takes.of_ends {n k : Nat} {o : Outcome} {s : Store} {τ : List Signal}
    (ends : Fiber.step^[k] (Fiber.start commands s₀ begun) = ⟨s, τ.reverse ++ begun, [], o.halts⟩)
    (within : e.opsThisSecond ≤ l.maxOpsPerSecond)
    (h : e.Takes l t (Fiber.start commands s₀ begun) n) :
    n ≤ k ∧ e.running = true ∧ (∃ ρ, ρ <+: τ ∧ e.signals = ρ.reverse ++ begun) ∨
    e.running = false ∧ e.store = s ∧ e.signals = (τ ++ closing o).reverse ++ begun := by
  have final : (Fiber.step^[k] (Fiber.start commands s₀ begun)).Final := by
    rw [ends]
    exact Or.inr rfl
  cases h with
  | all lone unfinished =>
    have le : n ≤ k := Nat.not_lt.mp fun lt => unfinished k lt final
    have since := Fiber.told_iterate (Fiber.start commands s₀ begun) (Nat.zero_le n)
    have until' := Fiber.told_iterate (Fiber.start commands s₀ begun) le
    rw [ends] at until'
    rw [lone.signals]
    exact Or.inl ⟨le, lone.running, told_prefix since until'⟩
  | some j le stopped =>
    rw [Fiber.final_unique stopped.final final, ends] at stopped
    exact Or.inr stopped.shows
  | toomany exceeded => exact absurd exceeded (Nat.not_lt.mpr within)

theorem Takes.of_endless {n : Nat} (endless : ∀ o s τ, ¬ RunsAll false commands s₀ o s τ)
    (within : e.opsThisSecond ≤ l.maxOpsPerSecond)
    (h : e.Takes l t (Fiber.start commands s₀ begun) n) :
    e.running = true ∧ e.signals = (Fiber.step^[n] (Fiber.start commands s₀ begun)).told := by
  cases h with
  | all lone _ => exact ⟨lone.running, lone.signals⟩
  | some k _ stopped => exact absurd stopped.final (Fiber.start_unfinished endless k begun)
  | toomany exceeded => exact absurd exceeded (Nat.not_lt.mpr within)

end Outcome

end Engine

/-- A script of sequential commands refines its structured meaning, whatever the times of the ticks
and the number of steps in a tick, for as long as there are not too many operations in a second. -/
theorem structured_control_refined (e : Engine) (script : Script) (handlers : Dict (List Script))
    (actor : Sprite) (now : Nat) (times : Nat → Nat)
    (loaded : e.program = some ⟨[script], handlers⟩) (bound : e.sprite = some actor)
    (sequential : ∀ c ∈ Command.preorderList script.commands, c.isSequential = true)
    (budget : 1 ≤ e.limits.maxStepsPerTick)
    (ceiling : ∀ n, ((e.start now).ticks times n).opsThisSecond ≤ e.limits.maxOpsPerSecond) :
    let run := (e.start now).ticks times
    let begun := (e.start now).signals
    (∀ o s τ, RunsAll false script.commands e.store o s τ →
      (∀ n, (run n).running = true ∧ (∃ ρ, ρ <+: τ ∧ (run n).signals = ρ.reverse ++ begun) ∨
        (run n).running = false ∧ (run n).store = s ∧
          (run n).signals = (τ ++ closing o).reverse ++ begun) ∧
      ∃ n, ∀ m, n ≤ m → (run m).running = false) ∧
    ((∀ o s τ, ¬ RunsAll false script.commands e.store o s τ) →
      (∀ n, (run n).running = true ∧ ∃ limit ρ,
        ρ <+: (approxAll limit false script.commands e.store).trace ∧
        (run n).signals = ρ.reverse ++ begun) ∧
      ∀ limit, ∃ n ρ, (approxAll limit false script.commands e.store).trace <+: ρ ∧
        (run n).signals = ρ.reverse ++ begun) := by
  intro run begun
  obtain ⟨lone, pending⟩ := Engine.start_lone loaded bound sequential now
  have taken : ∀ n, (run n).Takes e.limits (Thread.start e.nextThreadId script e.tickCount)
      (Fiber.start script.commands e.store begun) (n * e.limits.maxStepsPerTick) :=
    fun n => (Engine.ticks_lone lone pending ceiling n).1
  -- With a step in every tick, every state of the fiber is passed at some tick.
  have passed : ∀ k, k ≤ k * e.limits.maxStepsPerTick := fun k => Nat.le_mul_of_pos_right k budget
  constructor
  · intro o s τ runs
    obtain ⟨k, ends⟩ := Fiber.start_ends runs begun
    have shown := fun n => (taken n).of_ends ends (ceiling n)
    refine ⟨fun n => (shown n).imp_left And.right, k + 1, fun m le => ?_⟩
    rcases shown m with ⟨short, _⟩ | ⟨stopped, _⟩
    · have := passed m
      omega
    · exact stopped
  · intro endless
    have told := fun n => (taken n).of_endless endless (ceiling n)
    have since : ∀ k, begun <:+ (Fiber.step^[k] (Fiber.start script.commands e.store begun)).told :=
      fun k => Fiber.told_iterate (Fiber.start script.commands e.store begun) (Nat.zero_le k)
    constructor
    · intro n
      obtain ⟨y, ⟨m, le, run'⟩, unfinished⟩ :=
        Fiber.start_lasts endless (n * e.limits.maxStepsPerTick) begun
      have until' := Fiber.told_iterate (Fiber.start script.commands e.store begun) le
      rw [run', unfinished.told] at until'
      refine ⟨(told n).1, n * e.limits.maxStepsPerTick, ?_⟩
      rw [(told n).2]
      exact told_prefix (since _) until'
    · intro limit
      obtain ⟨y, ⟨m, le, run'⟩, unfinished⟩ := Fiber.start_lasts endless limit begun
      have until' := Fiber.told_iterate (Fiber.start script.commands e.store begun) (passed m)
      rw [run', unfinished.told] at until'
      obtain ⟨u, later⟩ := until'
      refine ⟨m, _ ++ u.reverse, List.prefix_append _ _, ?_⟩
      rw [(told m).2, ← later]
      simp [Fiber.start]

/-- A loop that is left from inside of a choice, two that are counted by a fraction and by a
negative number, and one that is never left; two steps in a tick, and a second between ticks. -/
theorem structured_control_refined_loops :
    let engine (commands : List Command) : Engine :=
      { limits := { maxStepsPerTick := 2 }, program := some ⟨[⟨"main", commands⟩], .empty⟩
        sprite := some {} }
    let run (commands : List Command) :=
      ((engine commands).start 0).ticks (fun n => (n + 1) * Time.nanosPerSecond)
    let ends (commands : List Command) (told : List Signal) : Prop :=
      ∃ n, ∀ m, n ≤ m → (run commands m).running = false ∧ (run commands m).signals.reverse = told
    let body : List Command :=
      [.ifThen "test" (.bool true) [.simple "out" .breakLoop], .simple "rest" .unsupported]
    ends [.forever "loop" body, .simple "end" .stopThis]
      [.log "Engine started (1 script(s)).", .highlight (some "loop"), .highlight (some "test"),
        .highlight (some "out"), .highlight (some "end"), .log "STOP THIS SCRIPT encountered.",
        .log "All scripts finished.", .highlight none] ∧
    ends [.repeatTimes "twice" (.num 2.9) [.simple "in" .unsupported],
        .repeatTimes "never" (.num (-1.5)) [.simple "out" .unsupported]]
      [.log "Engine started (1 script(s)).", .highlight (some "twice"), .highlight (some "in"),
        .highlight (some "in"), .highlight (some "never"), .log "All scripts finished.",
        .highlight none] ∧
    ∀ n, (run [.forever "loop" []] n).running = true := by
  intro engine run ends body
  have ceiling : ∀ commands n, (run commands n).opsThisSecond ≤ 10000 := by
    intro commands n
    have first : ((engine commands).start 0).windowStart + Time.nanosPerSecond ≤
        (0 + 1) * Time.nanosPerSecond := by
      change 0 + Time.nanosPerSecond ≤ _
      omega
    have paced : ∀ n, (n + 1) * Time.nanosPerSecond + Time.nanosPerSecond ≤
        (n + 1 + 1) * Time.nanosPerSecond := fun n => Nat.le_of_eq (Nat.succ_mul _ _).symm
    have ops := Engine.ticks_paced first paced (Nat.zero_le _) n
    exact ops.trans (show 2 ≤ 10000 by decide)
  have finished : ∀ {commands o s τ told}, RunsAll false commands .empty o s τ →
      (∀ c ∈ Command.preorderList commands, c.isSequential = true) →
      ((engine commands).start 0).signals.reverse ++ (τ ++ closing o) = told →
      ends commands told := by
    rintro commands o s τ told runs sequential rfl
    obtain ⟨each, n, stops⟩ := (structured_control_refined (engine commands) ⟨"main", commands⟩
      .empty {} 0 _ rfl rfl sequential (show 1 ≤ 2 by decide) (ceiling commands)).1 _ _ _ runs
    refine ⟨n, fun m le => ⟨stops m le, ?_⟩⟩
    rcases each m with ⟨running, _⟩ | ⟨_, _, signals⟩
    · exact absurd (running.symm.trans (stops m le)) (by decide)
    · change (run commands m).signals = _ at signals
      rw [signals, List.reverse_append, List.reverse_reverse]
  refine ⟨?_, ?_, ?_⟩
  · have leaves : RunsAll true body .empty .broken .empty _ :=
      .exit (.ifTrue rfl (.exit (.simple rfl) (by decide))) (by decide)
    have runs : RunsAll false [.forever "loop" body, .simple "end" .stopThis] .empty
        (.stopped false) .empty _ :=
      .cons (.forever (.broke (by simp) leaves)) (.exit (.simple rfl) (by decide))
    exact finished runs (by decide) (by decide)
  · have two : Engine.loopCount ((Expr.num 2.9).evalNumber .empty) = 2 := by decide +kernel
    have none : Engine.loopCount ((Expr.num (-1.5)).evalNumber .empty) = 0 := by decide +kernel
    have once : RunsAll true [.simple "in" .unsupported] .empty .normal .empty _ :=
      .cons (.simple rfl) .nil
    have loop : Loops [.simple "in" .unsupported] (some 2) .empty .normal .empty _ :=
      .again rfl once (.inl rfl) (.again rfl once (.inl rfl) .done)
    rw [← two] at loop
    have skip : Loops [.simple "out" .unsupported] (some 0) .empty .normal .empty _ := .done
    rw [← none] at skip
    have twice : Runs false (.repeatTimes "twice" _ _) .empty _ _ _ := .repeatTimes loop
    have never : Runs false (.repeatTimes "never" _ _) .empty _ _ _ := .repeatTimes skip
    exact finished (.cons twice (.cons never .nil)) (by decide) (by decide)
  · have refined := (structured_control_refined (engine [.forever "loop" []])
      ⟨"main", [.forever "loop" []]⟩ .empty {} 0 _ rfl rfl (by decide) (by decide)
      (ceiling [.forever "loop" []])).2
    have endless : ∀ o s τ, ¬ RunsAll false [.forever "loop" []] .empty o s τ := by
      intro o s τ runs
      cases runs with
      | cons first _ => cases first with | forever loop => exact loop.of_empty rfl rfl
      | exit first _ => cases first with | forever loop => exact loop.of_empty rfl rfl
    exact fun n => ((refined endless).1 n).1

end BlockStage
