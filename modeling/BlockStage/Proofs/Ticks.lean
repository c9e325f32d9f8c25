import BlockStage.Proofs.Run

/-! # What a tick keeps

A tick is made of few moves: it begins, prunes the finished threads, counts an operation, takes a
step, and asks for the next tick. What these moves keep holds behind every tick that leaves the
engine running. A tick ends the run in three ways only, and what is kept holds right before that.
-/
namespace BlockStage

namespace Engine

structure Keeps (I : Engine → Prop) : Prop where
  begins : ∀ e now, I e → I (e.beginTick now)
  prunes : ∀ e, I e → I { e with threads := e.liveThreads }
  counts : ∀ e, I e → I { e with opsThisSecond := e.opsThisSecond + 1 }
  requests : ∀ e, I e → I { e with pending := true }
  steps : ∀ v : Visit, v.Due → I v.engine → v.after.running = true → I v.after

/-- The engine behind the end of a run, which came right behind what is kept. -/
inductive Halts (I : Engine → Prop) : Engine → Prop where
  | finished {e} (kept : I e) (none : e.threads = []) :
      Halts I ((e.report "All scripts finished.").stop)
  | exceeded {e} (kept : I e) :
      Halts I ((e.report "Safety stop: too many operations/sec (possible infinite loop).").stop)
  | stepped {v : Visit} (due : v.Due) (kept : I v.engine) (stopped : v.after.running = false) :
      Halts I v.after

/-- The run goes on with what is kept, or it has ended. -/
def Stays (I : Engine → Prop) (e : Engine) : Prop :=
  e.running = true ∧ I e ∨ e.running = false ∧ Halts I e

end Engine

namespace Pass

open Engine (Keeps Halts Stays)

variable {I : Engine → Prop} {p : Pass} {dt : Float}

/-- A pass that is still open has not ended the run. -/
structure Stays (I : Engine → Prop) (p : Pass) : Prop where
  engine : p.engine.Stays I
  running : p.ended = false → p.engine.running = true

theorem Stays.kept (h : p.Stays I) (open' : p.ended = false) : I p.engine := by
  rcases h.engine with ⟨_, kept⟩ | ⟨stopped, _⟩
  · exact kept
  · rw [h.running open'] at stopped
    cases stopped

theorem visit_stays (keeps : Keeps I) {i : Nat} {t : Thread} (kept : I p.engine)
    (running : p.engine.running = true) (listed : p.engine.threads[i]? = some t)
    (unfinished : t.finished = false) (older : t.bornTick < p.engine.tickCount) :
    (p.visit dt i t).Stays I := by
  let v : Visit := ⟨p.engine, i, t, dt, (p.engine.stepThread t dt).2.2⟩
  have due : v.Due := ⟨running, listed, unfinished, older, rfl⟩
  have engine : (p.visit dt i t).engine = v.after := by
    unfold visit Visit.after Engine.stepAt
    split
    split <;> simp_all [v]
  have open' : (p.visit dt i t).ended = false → (p.visit dt i t).engine.running = true := by
    unfold visit
    split
    split
    · intro _; assumption
    · intro ended; cases ended
  refine ⟨?_, open'⟩
  rw [engine]
  by_cases runs : v.after.running = true
  · exact Or.inl ⟨runs, keeps.steps v due kept runs⟩
  · have stopped : v.after.running = false := by simpa using runs
    exact Or.inr ⟨stopped, .stepped due kept stopped⟩

theorem turn_stays (keeps : Keeps I) {i : Nat} (h : p.Stays I) : (p.turn dt i).Stays I := by
  unfold turn
  split
  · exact h
  next open' =>
    have going : p.ended = false := by simpa using open'
    have running := h.running going
    have kept := h.kept going
    split
    · exact h
    next t listed =>
      split
      · exact h
      next eligible =>
        simp only [Bool.or_eq_true, decide_eq_true_eq, not_or, Bool.not_eq_true,
          Nat.not_le] at eligible
        split
        · exact ⟨h.engine, by simp⟩
        · have counted : I p.count.engine := keeps.counts _ kept
          dsimp only
          split
          · exact ⟨Or.inr ⟨rfl, .exceeded counted⟩, by simp⟩
          · exact visit_stays keeps counted running listed eligible.1 eligible.2

theorem round_stays (keeps : Keeps I) (h : p.Stays I) : (p.round dt).Stays I := by
  have fold : ∀ (positions : List Nat) (q : Pass), q.Stays I →
      (positions.foldl (turn dt) q).Stays I := by
    intro positions
    induction positions with
    | nil => intro q hq; exact hq
    | cons i positions ih => intro q hq; exact ih _ (turn_stays keeps hq)
  exact fold _ _ ⟨h.engine, h.running⟩

theorem rounds_stays (keeps : Keeps I) {fuel : Nat} (h : p.Stays I) :
    (rounds dt fuel p).Stays I := by
  induction fuel generalizing p with
  | zero => exact h
  | succ fuel ih =>
    unfold rounds
    dsimp only
    split
    · exact h
    next going =>
      simp only [Bool.or_eq_true, Bool.not_eq_true', decide_eq_true_eq, not_or,
        Bool.not_eq_true] at going
      have pruned := keeps.prunes _ (h.kept going.1.1)
      have running := h.running going.1.1
      split
      next none =>
        exact ⟨Or.inr ⟨rfl, .finished pruned (by simpa using none)⟩, by simp⟩
      · have next : (round dt { p with engine :=
            { p.engine with threads := p.engine.liveThreads } }).Stays I :=
          round_stays keeps ⟨Or.inl ⟨running, pruned⟩, h.running⟩
        split
        · exact ih next
        · exact next

end Pass

namespace Engine

variable {I : Engine → Prop} {e : Engine}

theorem tick_stays (keeps : Keeps I) (h : I e) (running : e.running = true) (now : Nat) :
    (e.tick now).1.Stays I := by
  unfold tick
  split
  · have begun : Pass.Stays I
        { engine := e.beginTick now, left := e.limits.maxStepsPerTick } :=
      ⟨Or.inl ⟨by simpa using running, keeps.begins e now h⟩, fun _ => by simpa using running⟩
    have done : (e.tickPass now).engine.Stays I := (Pass.rounds_stays keeps begun).engine
    dsimp only
    split
    next runs =>
      rcases done with ⟨_, kept⟩ | ⟨stopped, _⟩
      · exact Or.inl ⟨runs, keeps.requests _ kept⟩
      · rw [stopped] at runs
        cases runs
    · exact done
  · exact Or.inl ⟨running, h⟩

theorem ticks_stays (keeps : Keeps I) (h : I e) (running : e.running = true) (times : Nat → Nat)
    (n : Nat) : (e.ticks times n).Stays I := by
  induction n with
  | zero => exact Or.inl ⟨running, h⟩
  | succ n ih =>
    rcases ih with ⟨runs, kept⟩ | ⟨stopped, halts⟩
    · exact tick_stays keeps kept runs (times n)
    · rw [ticks_of_stopped stopped (Nat.le_succ n)]
      exact Or.inr ⟨stopped, halts⟩

end Engine

end BlockStage
