import BlockStage.Proofs.Run

/-! # The operations of a tick

A tick counts an operation for every step that it allows. So the operations of a second grow by no
more than the steps of a tick, and where ticks are a second apart, no second has more operations
than a tick has steps.
-/
namespace BlockStage

/-- Nothing differs in the limits and in the second that is counted. -/
structure Engine.SameWindow (e e' : Engine) : Prop where
  limits : e'.limits = e.limits
  window : e'.windowStart = e.windowStart

theorem Engine.SameWindow.trans {e e' e'' : Engine} (h : e.SameWindow e')
    (h' : e'.SameWindow e'') : e.SameWindow e'' :=
  ⟨h'.limits.trans h.limits, h'.window.trans h.window⟩

theorem Engine.stepThread_uncounted (e : Engine) (t : Thread) (dt : Float) :
    e.SameWindow (e.stepThread t dt).1 ∧
      (e.stepThread t dt).1.opsThisSecond = e.opsThisSecond := by
  rcases (e.stepThread_effect t dt).engine with ⟨e₀, quiet, he⟩ | ⟨e₀, scripts, quiet, _, he⟩
  · obtain ⟨_, _, _, rfl⟩ := quiet
    rw [he]
    exact ⟨⟨rfl, rfl⟩, rfl⟩
  · obtain ⟨_, _, _, rfl⟩ := quiet
    rw [he]
    exact ⟨⟨rfl, rfl⟩, rfl⟩

namespace Pass

/-- What was counted in between was taken from the steps that were left. -/
structure Accounts (p q : Pass) : Prop where
  same : p.engine.SameWindow q.engine
  ops : q.engine.opsThisSecond + q.left = p.engine.opsThisSecond + p.left

theorem Accounts.refl (p : Pass) : p.Accounts p := ⟨⟨rfl, rfl⟩, rfl⟩

theorem Accounts.trans {p q r : Pass} (h : p.Accounts q) (h' : q.Accounts r) : p.Accounts r :=
  ⟨h.same.trans h'.same, h'.ops.trans h.ops⟩

theorem visit_accounts (dt : Float) (i : Nat) (t : Thread) (p : Pass) :
    p.Accounts (p.visit dt i t) := by
  obtain ⟨same, ops⟩ := p.engine.stepThread_uncounted t dt
  unfold visit
  split
  next stepped =>
    rw [stepped] at same ops
    split
    · exact ⟨⟨same.limits, same.window⟩, congrArg (· + p.left) ops⟩
    · exact ⟨same, congrArg (· + p.left) ops⟩

theorem turn_accounts (dt : Float) (p : Pass) (i : Nat) : p.Accounts (p.turn dt i) := by
  unfold turn
  split
  · exact .refl p
  · split
    · exact .refl p
    · split
      · exact .refl p
      · split
        · exact ⟨⟨rfl, rfl⟩, rfl⟩
        next left =>
          have counted : p.Accounts p.count := by
            refine ⟨⟨rfl, rfl⟩, ?_⟩
            simp only [count]
            omega
          dsimp only
          split
          · exact counted.trans ⟨⟨rfl, rfl⟩, rfl⟩
          · exact counted.trans (visit_accounts ..)

theorem round_accounts (dt : Float) (p : Pass) : p.Accounts (p.round dt) := by
  have fold : ∀ (positions : List Nat) (q : Pass), p.Accounts q →
      p.Accounts (positions.foldl (turn dt) q) := by
    intro positions
    induction positions with
    | nil => intro q hq; exact hq
    | cons i positions ih => intro q hq; exact ih _ (hq.trans (turn_accounts dt q i))
  exact fold _ _ ⟨⟨rfl, rfl⟩, rfl⟩

theorem rounds_accounts (dt : Float) (fuel : Nat) (p : Pass) : p.Accounts (rounds dt fuel p) := by
  induction fuel generalizing p with
  | zero => exact .refl p
  | succ fuel ih =>
    unfold rounds
    dsimp only
    split
    · exact .refl p
    · split
      · exact ⟨⟨rfl, rfl⟩, rfl⟩
      · have pruned : p.Accounts
            { p with engine := { p.engine with threads := p.engine.liveThreads } } :=
          ⟨⟨rfl, rfl⟩, rfl⟩
        have once := pruned.trans (round_accounts dt _)
        split
        · exact once.trans (ih _)
        · exact once

end Pass

namespace Engine

/-- A tick that comes a second after the beginning of the count counts its own steps only. -/
theorem tickPass_late {e : Engine} {now : Nat} (late : e.windowStart + Time.nanosPerSecond ≤ now) :
    (e.tickPass now).engine.limits = e.limits ∧ (e.tickPass now).engine.windowStart = now ∧
      (e.tickPass now).engine.opsThisSecond ≤ e.limits.maxStepsPerTick := by
  have reset : e.beginTick now = { e with
      pending := false, tickCount := e.tickCount + 1, lastTick := now
      windowStart := now, opsThisSecond := 0 } := by
    unfold beginTick
    dsimp only
    rw [if_pos (by omega)]
  have accounts := Pass.rounds_accounts (e.delta now) e.limits.maxStepsPerTick
    { engine := e.beginTick now, left := e.limits.maxStepsPerTick }
  rw [reset] at accounts
  unfold tickPass
  rw [reset]
  refine ⟨accounts.same.limits, accounts.same.window, ?_⟩
  have ops := accounts.ops
  dsimp only at ops ⊢
  omega

theorem ticks_paced {e : Engine} {times : Nat → Nat}
    (first : e.windowStart + Time.nanosPerSecond ≤ times 0)
    (paced : ∀ n, times n + Time.nanosPerSecond ≤ times (n + 1))
    (fresh : e.opsThisSecond ≤ e.limits.maxStepsPerTick) (n : Nat) :
    (e.ticks times n).opsThisSecond ≤ e.limits.maxStepsPerTick := by
  have steady : (e.ticks times n).limits = e.limits ∧
      (e.ticks times n).windowStart + Time.nanosPerSecond ≤ times n ∧
      (e.ticks times n).opsThisSecond ≤ e.limits.maxStepsPerTick := by
    induction n with
    | zero => exact ⟨rfl, first, fresh⟩
    | succ n ih =>
      obtain ⟨limits, late, ops⟩ := ih
      obtain ⟨limits', window', ops'⟩ := tickPass_late late
      have next := paced n
      rw [limits] at limits' ops'
      simp only [ticks, tick]
      split
      · split
        · exact ⟨limits', by simpa [window'] using next, ops'⟩
        · exact ⟨limits', by simpa [window'] using next, ops'⟩
      · exact ⟨limits, by dsimp only; omega, ops⟩
  exact steady.2.2

end Engine

end BlockStage
