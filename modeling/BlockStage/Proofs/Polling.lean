import BlockStage.Proofs.Decimal.Sign
import BlockStage.Proofs.Finiteness
import BlockStage.Proofs.Independence.Tracking

/-! # Polling timed actions

Each step of a thread in the midst of a timed action polls that action. Only the first step in a
tick adds the time of the tick, and in the tick of its beginning none does: a thread that has been
stepped in a tick is settled, and polling it once more changes nothing.
-/
namespace BlockStage

open Decimal (Unsigned)

/-! ## The part that is done -/

theorem one_le_lesser {q : Float} (defined : q.isNaN = false) : 1 ≤ lesser q 1 ↔ 1 ≤ q := by
  have one : ¬ (1 : Float).isNaN = true := by decide
  rw [lesser, if_neg (Bool.eq_false_iff.mp defined), if_neg one]
  by_cases more : 1 < q
  · rw [if_pos more]
    have le : 1 ≤ q := by
      have less : ((1 : Float).toModel.compare q.toModel == some .lt) = true :=
        of_decide_eq_true more
      have order : (1 : Float).toModel.compare q.toModel = some .lt := by simpa using less
      change decide (((1 : Float).toModel.compare q.toModel).any (·.isLE) = true) = true
      rw [order]
      rfl
    exact ⟨fun _ => le, fun _ => by decide⟩
  · rw [if_neg more]

namespace Action

variable {a : Action}

/-- An action of a positive duration; only the others are done at once. -/
structure Lasting (a : Action) : Prop where
  positive : 0 < a.duration
  finite : a.duration.isFinite = true

theorem Lasting.done_iff (h : a.Lasting) (unsigned : Unsigned a.elapsed) :
    1 ≤ a.progress ↔ 1 ≤ a.elapsed / a.duration := by
  rw [progress, if_neg (Decimal.not_le_zero h.positive h.finite)]
  exact one_le_lesser (unsigned.div h.positive h.finite).isNaN

theorem Lasting.not_done (h : a.Lasting) (begun : a.elapsed = 0) : ¬ 1 ≤ a.progress := by
  rw [h.done_iff (begun ▸ .zero), begun, Decimal.zero_div h.positive h.finite]
  decide

theorem advance_of_eq {tick : Nat} (same : a.advancedAt = tick) (dt : Float) :
    a.advance tick dt = a := by
  rw [advance, if_pos (by simpa using same)]

theorem advance_of_ne {tick : Nat} (other : a.advancedAt ≠ tick) (dt : Float) :
    a.advance tick dt = { a with advancedAt := tick, elapsed := a.elapsed + dt } := by
  rw [advance, if_neg (by simpa using other)]

end Action

theorem greater_isFinite {x y : Float} (hx : x.isFinite = true) (hy : y.isFinite = true) :
    (greater x y).isFinite = true := by
  unfold greater
  split
  · exact hy
  split
  · exact hx
  split
  · exact hy
  · exact hx

namespace Engine

theorem clamp_isFinite {x low high : Float} (unsigned : Unsigned x) (hl : low.isFinite = true)
    (hh : high.isFinite = true) : (clamp x low high).isFinite = true := by
  unfold clamp
  split
  · exact hl
  split
  · exact hh
  next notMore =>
    by_contra infinite
    exact notMore (unsigned.lt_of_infinite infinite hh)

theorem beginAction?_begun {e : Engine} {i : Instruction} {a : Action}
    (begun : e.beginAction? i = some a) :
    a.duration.isFinite = true ∧ a.elapsed = 0 ∧ a.advancedAt = e.tickCount := by
  have quotient : ∀ (x : Expr) {d : Float}, 0 < d → d.isFinite = true →
      Unsigned ((x.evalNumber e.store).abs / d) := by
    intro x d positive finite
    have defined := Decimal.isNaN_of_isFinite (x.evalNumber_isFinite e.store)
    exact (Unsigned.abs defined).div positive finite
  cases i with
  | move steps =>
    obtain ⟨s, _, rfl⟩ := Option.map_eq_some_iff.mp begun
    exact ⟨clamp_isFinite (quotient steps (by decide) (by decide)) (by decide) (by decide), rfl,
      rfl⟩
  | turn degrees =>
    obtain ⟨s, _, rfl⟩ := Option.map_eq_some_iff.mp begun
    exact ⟨clamp_isFinite (quotient degrees (by decide) (by decide)) (by decide) (by decide), rfl,
      rfl⟩
  | wait seconds =>
    obtain rfl := Option.some.inj begun
    exact ⟨greater_isFinite (seconds.evalNumber_isFinite e.store) (by decide), rfl, rfl⟩
  | _ => cases begun

end Engine

/-! ## Steps of an action -/

@[simp] theorem Thread.resume_action (t : Thread) (frames : List Frame) :
    (t.resume frames).action = t.action := by
  unfold resume
  split <;> rfl

@[simp] theorem Thread.finishBody_action (t : Thread) : t.finishBody.action = t.action := by
  unfold finishBody
  split
  · rfl
  · split
    · exact t.resume_action _
    · rfl
    · split
      · rfl
      · exact t.resume_action _

namespace Engine

variable {e : Engine} {t : Thread} {dt : Float}

theorem stepInstruction_timed {i : Instruction} (timed : i.isTimed = true) :
    e.stepInstruction t i dt = e.stepAction t i dt := by
  cases i with
  | move _ | turn _ | wait _ => rfl
  | _ => cases timed

theorem lit_beginAction? (e : Engine) (id : String) (i : Instruction) :
    (e.lit id).beginAction? i = e.beginAction? i := by
  obtain ⟨quiet, store, sprite⟩ := e.lit_quiet id
  unfold beginAction?
  rw [store, sprite, quiet.tickCount]

theorem Effect.no_action {e' : Engine} {t' : Thread} {progress : Bool}
    (effect : Effect e t dt e' t' progress) (idle : t.action = none)
    (begins : ∀ id i, t.current? = some (.simple id i) → e.beginAction? i = none) :
    t'.action = none := by
  cases effect with
  | acting cur _ begun =>
    rcases begun with flying | ⟨_, begun⟩
    · rw [idle] at flying
      cases flying
    · rw [begins _ _ cur] at begun
      cases begun
  | acted => exact Thread.advance_action _
  | broke => exact Thread.resume_action _ _
  | continued => exact Thread.finishBody_action _
  | ended => rfl
  | closed => exact (Thread.finishBody_action t).trans idle
  | passed | sent | unheard => exact (Thread.advance_action t).trans idle
  | resumed => exact (Thread.advance_action _).trans idle
  | empty | entered | called | polled | halted => exact idle

end Engine

namespace Visit

variable {v : Visit} {a : Action}

/-- The action that the step works on: the one in flight, or one that begins with the step. -/
def action? (v : Visit) : Option Action :=
  match v.thread.current? with
  | some (.simple _ i) =>
    if i.isTimed then v.thread.action.or (v.engine.beginAction? i) else none
  | _ => none

def Begins (v : Visit) (a : Action) : Prop := v.thread.action = none ∧ v.action? = some a

def Completes (v : Visit) (a : Action) : Prop := v.action? = some a ∧ v.progress = true

theorem action?_eq_some : v.action? = some a ↔ ∃ id i, v.thread.current? = some (.simple id i) ∧
    i.isTimed = true ∧ v.thread.action.or (v.engine.beginAction? i) = some a := by
  unfold action?
  constructor
  · intro acts
    split at acts
    next id i cur =>
      by_cases timed : i.isTimed = true
      · rw [if_pos timed] at acts
        exact ⟨id, i, cur, timed, acts⟩
      · rw [if_neg timed] at acts
        cases acts
    · cases acts
  · rintro ⟨id, i, cur, timed, acts⟩
    rw [cur]
    dsimp only
    rw [if_pos timed, acts]

theorem Due.step_action (due : v.Due) (acts : v.action? = some a) :
    1 ≤ (a.advance v.engine.tickCount v.dt).progress ∧ v.progress = true ∧
      v.stepped = { v.thread with action := none }.advance ∨
    ¬ 1 ≤ (a.advance v.engine.tickCount v.dt).progress ∧ v.progress = false ∧
      v.stepped = { v.thread with action := some (a.advance v.engine.tickCount v.dt) } := by
  obtain ⟨id, i, cur, timed, flying⟩ := action?_eq_some.mp acts
  obtain ⟨quiet, _, _⟩ := v.engine.lit_quiet id
  have step : v.engine.stepThread v.thread v.dt =
      Engine.settle ((v.engine.lit id).stepAction v.thread i v.dt) := by
    rw [Engine.stepThread_current cur]
    change Engine.settle ((v.engine.lit id).stepInstruction v.thread i v.dt) = _
    rw [Engine.stepInstruction_timed timed]
  rw [due.progress, stepped, step, Engine.stepAction, Engine.lit_beginAction?, flying]
  dsimp only
  rw [quiet.tickCount]
  by_cases done : 1 ≤ (a.advance v.engine.tickCount v.dt).progress
  · rw [if_pos done]
    exact Or.inl ⟨done, rfl, rfl⟩
  · rw [if_neg done]
    exact Or.inr ⟨done, rfl, rfl⟩

end Visit

namespace Thread

/-- If an action is in flight, the tick has been added to it and has not completed it. -/
def Settled (tick : Nat) (t : Thread) : Prop :=
  ∀ b, t.action = some b → b.advancedAt = tick ∧ ¬ 1 ≤ b.progress

theorem Settled.of_idle {tick : Nat} {t : Thread} (idle : t.action = none) : t.Settled tick := by
  intro b flying
  rw [idle] at flying
  cases flying

end Thread

section Settled

variable {Root : List Command → Prop} {v : Visit} {a : Action}

theorem Thread.Controlled.in_flight (h : v.thread.Controlled Root v.engine.tickCount)
    (flying : v.thread.action = some a) : v.action? = some a := by
  obtain ⟨id, i, cur, performs, _⟩ := h.action a flying
  have timed := Thread.isTimed_of_performs performs
  exact Visit.action?_eq_some.mpr ⟨id, i, cur, timed, by rw [flying]; rfl⟩

theorem Visit.Due.stepped_settled (due : v.Due)
    (controlled : v.thread.Controlled Root v.engine.tickCount) :
    v.stepped.Settled v.engine.tickCount := by
  cases acts : v.action? with
  | some a =>
    rcases due.step_action acts with ⟨_, _, stepped⟩ | ⟨undone, _, stepped⟩
    · apply Thread.Settled.of_idle
      rw [stepped]
      exact Thread.advance_action _
    · intro b flying
      rw [stepped] at flying
      obtain rfl := Option.some.inj flying
      exact ⟨(a.advance_motion _ _).2, undone⟩
  | none =>
    apply Thread.Settled.of_idle
    have idle : v.thread.action = none := by
      cases flying : v.thread.action with
      | none => rfl
      | some a =>
        rw [controlled.in_flight flying] at acts
        cases acts
    apply v.effect.no_action idle
    intro id i cur
    cases begun : v.engine.beginAction? i with
    | none => rfl
    | some a =>
      have timed := Thread.isTimed_of_performs (Engine.beginAction_performs begun)
      have begins : v.action? = some a :=
        Visit.action?_eq_some.mpr ⟨id, i, cur, timed, by rw [idle]; exact begun⟩
      rw [acts] at begins
      cases begins

/-- Polling an action once more in the same tick changes nothing. -/
theorem Thread.Settled.polled (settled : v.thread.Settled v.engine.tickCount) (due : v.Due)
    (controlled : v.thread.Controlled Root v.engine.tickCount)
    (flying : v.thread.action = some a) : v.progress = false ∧ v.stepped = v.thread := by
  obtain ⟨same, undone⟩ := settled a flying
  have still := Action.advance_of_eq same v.dt
  rcases due.step_action (controlled.in_flight flying) with ⟨done, _⟩ | ⟨_, progress, stepped⟩
  · rw [still] at done
    exact absurd done undone
  · refine ⟨progress, ?_⟩
    rw [stepped, still, ← flying]

theorem Visit.Begins.begun (begins : v.Begins a) :
    a.duration.isFinite = true ∧ a.elapsed = 0 ∧ a.advancedAt = v.engine.tickCount := by
  obtain ⟨idle, acts⟩ := begins
  obtain ⟨id, i, _, _, begun⟩ := Visit.action?_eq_some.mp acts
  rw [idle] at begun
  exact Engine.beginAction?_begun begun

theorem Visit.Begins.cases (begins : v.Begins a) (due : v.Due) (positive : 0 < a.duration) :
    v.progress = false ∧ v.stepped = { v.thread with action := some a } := by
  obtain ⟨finite, zero, now⟩ := begins.begun
  have still := Action.advance_of_eq now v.dt
  rcases due.step_action begins.2 with ⟨done, _⟩ | ⟨_, progress, stepped⟩
  · rw [still] at done
    exact absurd done (Action.Lasting.not_done ⟨positive, finite⟩ zero)
  · exact ⟨progress, by rw [stepped, still]⟩

/-- A thread that has been stepped in a tick completes no action of positive duration in it. -/
theorem Thread.Settled.not_completes (settled : v.thread.Settled v.engine.tickCount) (due : v.Due)
    (controlled : v.thread.Controlled Root v.engine.tickCount) (positive : 0 < a.duration) :
    ¬ v.Completes a := by
  rintro ⟨acts, progress⟩
  cases flying : v.thread.action with
  | none =>
    rw [(Visit.Begins.cases ⟨flying, acts⟩ due positive).1] at progress
    cases progress
  | some b =>
    rw [(settled.polled due controlled flying).1] at progress
    cases progress

end Settled

end BlockStage
