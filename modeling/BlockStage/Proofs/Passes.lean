import BlockStage.Proofs.Course

/-! # The passes of a tick

A tick takes passes over the threads until it is over. `EndsIn` says so without a bound on their
number. A pass that makes progress has taken steps, so the steps of a tick bound its passes, and a
tick comes to the one end that it has.
-/
namespace BlockStage

namespace Pass

/-- The tick goes on with another pass. -/
def Open (p : Pass) : Prop := p.ended = false ∧ p.engine.running = true ∧ p.left ≠ 0

def pruned (p : Pass) : Pass := { p with engine := p.engine.prune }

/-- The passes of a tick, without a bound on their number. -/
inductive EndsIn (dt : Float) : Pass → Pass → Prop where
  | closed {p} (closed : ¬ p.Open) : EndsIn dt p p
  | finished {p} (going : p.Open) (none : p.engine.liveThreads = []) :
      EndsIn dt p { p with
        engine := (p.engine.prune.report "All scripts finished.").stop, ended := true }
  | still {p} (going : p.Open) (some : p.engine.liveThreads ≠ [])
      (still : (p.pruned.round dt).progressed = false) : EndsIn dt p (p.pruned.round dt)
  | again {p q} (going : p.Open) (some : p.engine.liveThreads ≠ [])
      (progressed : (p.pruned.round dt).progressed = true)
      (rest : EndsIn dt (p.pruned.round dt) q) : EndsIn dt p q

variable {dt : Float} {p : Pass}

theorem EndsIn.unique {q q' : Pass} (h : EndsIn dt p q) (h' : EndsIn dt p q') : q = q' := by
  induction h with
  | closed closed =>
    cases h' with
    | closed => rfl
    | finished going | still going | again going => exact absurd going closed
  | finished going none =>
    cases h' with
    | closed closed => exact absurd going closed
    | finished => rfl
    | still _ some | again _ some => exact absurd none some
  | still going some still =>
    cases h' with
    | closed closed => exact absurd going closed
    | finished _ none => exact absurd none some
    | still => rfl
    | again _ _ progressed =>
      rw [still] at progressed
      cases progressed
  | again going some progressed _ ih =>
    cases h' with
    | closed closed => exact absurd going closed
    | finished _ none => exact absurd none some
    | still _ _ still =>
      rw [still] at progressed
      cases progressed
    | again _ _ _ rest => exact ih rest

/-- Progress uses up steps. -/
structure Spends (p q : Pass) : Prop where
  left : q.left ≤ p.left
  progressed : q.progressed = true → p.progressed = true ∨ q.left < p.left

theorem turn_spends (p : Pass) (dt : Float) (i : Nat) : p.Spends (p.turn dt i) := by
  have same : p.Spends p := ⟨Nat.le_refl _, Or.inl⟩
  unfold turn
  split
  · exact same
  · split
    · exact same
    · split
      · exact same
      · split
        · exact ⟨Nat.le_refl _, Or.inl⟩
        next left =>
          have less : p.count.left < p.left := Nat.sub_one_lt left
          dsimp only
          split
          · exact ⟨Nat.le_of_lt less, Or.inl⟩
          · rw [visit_eq]
            exact ⟨Nat.le_of_lt less, fun _ => Or.inr less⟩

theorem round_spends (p : Pass) (dt : Float) : (p.round dt).left ≤ p.left ∧
    ((p.round dt).progressed = true → (p.round dt).left < p.left) := by
  have fold : ∀ (positions : List Nat) (q : Pass), q.Spends (positions.foldl (turn dt) q) := by
    intro positions
    induction positions with
    | nil => intro q; exact ⟨Nat.le_refl _, Or.inl⟩
    | cons i positions ih =>
      intro q
      have first := turn_spends q dt i
      have rest := ih (q.turn dt i)
      refine ⟨Nat.le_trans rest.left first.left, fun progressed => ?_⟩
      rcases rest.progressed progressed with earlier | less
      · rcases first.progressed earlier with before | less
        · exact Or.inl before
        · exact Or.inr (Nat.lt_of_le_of_lt rest.left less)
      · exact Or.inr (Nat.lt_of_lt_of_le less first.left)
  have spends := fold (List.range p.engine.threads.length) { p with progressed := false }
  refine ⟨spends.left, fun progressed => ?_⟩
  rcases spends.progressed progressed with before | less
  · cases before
  · exact less

/-- As many passes as there are steps left are enough. -/
theorem rounds_endsIn {fuel : Nat} (enough : p.left ≤ fuel) : EndsIn dt p (rounds dt fuel p) := by
  induction fuel generalizing p with
  | zero =>
    apply EndsIn.closed
    rintro ⟨_, _, left⟩
    exact left (Nat.le_zero.mp enough)
  | succ fuel ih =>
    unfold rounds
    dsimp only
    split
    next closed =>
      apply EndsIn.closed
      rintro ⟨going, runs, left⟩
      simp [going, runs, left] at closed
    next going =>
      simp only [Bool.or_eq_true, Bool.not_eq_true', decide_eq_true_eq, not_or,
        Bool.not_eq_true, Bool.not_eq_false] at going
      have going : p.Open := ⟨going.1.1, going.1.2, going.2⟩
      split
      next none => exact .finished going (by simpa using none)
      next some =>
        have some : p.engine.liveThreads ≠ [] := by simpa using some
        change EndsIn dt p (if (p.pruned.round dt).progressed then
          rounds dt fuel (p.pruned.round dt) else p.pruned.round dt)
        cases progressed : (p.pruned.round dt).progressed with
        | true =>
          have less : (p.pruned.round dt).left < p.left := (round_spends p.pruned dt).2 progressed
          exact .again going some progressed (ih (by omega))
        | false => exact .still going some progressed

end Pass

theorem Engine.endsIn_iff (e : Engine) (now : Nat) (p : Pass) :
    Pass.EndsIn (e.delta now) (e.openPass now) p ↔ p = e.tickPass now := by
  have terminates : Pass.EndsIn (e.delta now) (e.openPass now) (e.tickPass now) :=
    Pass.rounds_endsIn (Nat.le_refl _)
  constructor
  · intro there
    exact there.unique terminates
  · rintro rfl
    exact terminates

end BlockStage
