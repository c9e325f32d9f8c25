import Mathlib
import BlockStage.Proofs.ControlStack

/-! # Motions

A timed instruction sets out on a motion and is polled until the whole of it is done. The place of
the actor depends on where the motion began and on the part that is done, not on the parts that were
seen in between, and the part that ends the motion is the whole.
-/
namespace BlockStage

theorem eq_one_of_not_lt {q : Float} (le : 1 ≤ q) (notLt : ¬ 1 < q) : q = 1 := by
  have equal : (1 : Float).toModel.compare q.toModel = some .eq := by
    have le' : ((1 : Float).toModel.compare q.toModel).any (·.isLE) = true := of_decide_eq_true le
    have notLt' : ¬ ((1 : Float).toModel.compare q.toModel == some .lt) = true :=
      fun lt => notLt (decide_eq_true lt)
    cases compared : (1 : Float).toModel.compare q.toModel with
    | none => rw [compared] at le'; cases le'
    | some order =>
      rw [compared] at le' notLt'
      cases order with
      | lt => exact absurd rfl notLt'
      | eq => rfl
      | gt => cases le'
  have same : ((1 : Float) == q) = true := by
    change ((1 : Float).toModel.compare q.toModel == some .eq) = true
    rw [equal]
    rfl
  -- equal numbers are the same, zeros apart
  obtain ⟨_, _, eq | ⟨one, _⟩ | ⟨one, _⟩⟩ := Float.beq_iff_ne_nan_and_eq.mp same
  · exact eq.symm
  · exact absurd one (by decide)
  · exact absurd one (by decide)

theorem lesser_one_eq {q : Float} (le : 1 ≤ lesser q 1) : lesser q 1 = 1 := by
  have notNaN : ¬ (1 : Float).isNaN = true := by decide
  by_cases nan : q.isNaN = true
  · rw [lesser, if_pos nan]
  · rw [lesser, if_neg nan, if_neg notNaN] at le ⊢
    by_cases lt : 1 < q
    · rw [if_pos lt]
    · rw [if_neg lt] at le ⊢
      exact eq_one_of_not_lt le lt

theorem Action.progress_eq_one {a : Action} (done : 1 ≤ a.progress) : a.progress = 1 := by
  unfold progress at done ⊢
  by_cases instant : a.duration ≤ 0
  · rw [if_pos instant]
  · rw [if_neg instant] at done ⊢
    exact lesser_one_eq done

def Instruction.motion (store : Store) (s : Sprite) : Instruction → Motion
  | .move steps => .move (steps.evalNumber store) s.x s.y
  | .turn degrees => .turn (degrees.evalNumber store) s.rotation
  | _ => .wait

namespace Motion

/-- The actor when a part of the motion is done. -/
def carry (m : Motion) (p : Float) (s : Sprite) : Sprite :=
  match m with
  | .move steps startX startY =>
    { s with x := startX + s.heading.cos * steps * p, y := startY + s.heading.sin * steps * p }
  | .turn degrees startRotation => { s with rotation := startRotation + degrees * p }
  | .wait => s

/-- What was done of the motion before does not matter. -/
theorem carry_carry (m : Motion) (p q : Float) (s : Sprite) :
    m.carry q (m.carry p s) = m.carry q s := by
  cases m <;> rfl

end Motion

theorem Action.apply_eq_carry (a : Action) (p : Float) (s : Sprite) :
    a.apply p s = a.motion.carry p s := rfl

namespace Engine

variable {e : Engine} {t : Thread} {i : Instruction} {s : Sprite}

theorem beginAction?_motion (timed : i.isTimed = true) (actor : e.sprite = some s) :
    ∃ a, e.beginAction? i = some a ∧ a.motion = i.motion e.store s := by
  cases i with
  | move steps => exact ⟨_, by rw [beginAction?, actor]; rfl, rfl⟩
  | turn degrees => exact ⟨_, by rw [beginAction?, actor]; rfl, rfl⟩
  | wait seconds => exact ⟨_, rfl, rfl⟩
  | _ => cases timed

/-- The motion that a thread at a timed instruction is on, or sets out on. -/
def aim (e : Engine) (t : Thread) (i : Instruction) (s : Sprite) : Motion :=
  (t.action.map Action.motion).getD (i.motion e.store s)

/-- A step at a timed instruction does a part of the motion and is pending, or it does the whole and
goes on. -/
theorem stepAction_cases (timed : i.isTimed = true) (actor : e.sprite = some s) (dt : Float) :
    (∃ a p, a.motion = e.aim t i s ∧ e.stepAction t i dt =
      ({ e with sprite := some ((e.aim t i s).carry p s) }, { t with action := some a },
        .pending)) ∨
    e.stepAction t i dt =
      ({ e with sprite := some ((e.aim t i s).carry 1 s) }, { t with action := none },
        .advance) := by
  obtain ⟨b, begins, motion⟩ := beginAction?_motion timed actor
  obtain ⟨a, flying, aimed⟩ : ∃ a, t.action.or (e.beginAction? i) = some a ∧
      a.motion = e.aim t i s := by
    cases ha : t.action with
    | none => exact ⟨b, begins, by simp [aim, ha, motion]⟩
    | some a => exact ⟨a, rfl, by simp [aim, ha]⟩
  have kept : (a.advance e.tickCount dt).motion = e.aim t i s :=
    (a.advance_motion e.tickCount dt).1.trans aimed
  rw [stepAction, flying]
  dsimp only
  rw [actor, Option.map_some, Action.apply_eq_carry, kept]
  by_cases done : 1 ≤ (a.advance e.tickCount dt).progress
  · rw [if_pos done, Action.progress_eq_one done]
    exact Or.inr rfl
  · rw [if_neg done]
    exact Or.inl ⟨_, _, kept, rfl⟩

end Engine

end BlockStage
