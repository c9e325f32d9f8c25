import BlockStage.Proofs.ControlStack
import BlockStage.Proofs.Lockstep
import BlockStage.Proofs.Variables

/-! # Reports

An engine writes its reports and never reads them: whether somebody takes them or they pile up makes
no difference to what it does and to what it reports next. Earlier reports that lie under those of a
run are still there, untouched, when the run is over.
-/
namespace BlockStage

namespace Engine

variable {e : Engine} {t : Thread} {dt : Float} {earlier : List Signal}

/-- The engine with earlier reports that nobody has taken. -/
def unheard (earlier : List Signal) (e : Engine) : Engine :=
  { e with signals := e.signals ++ earlier }

/-- The result of a step, with earlier reports that nobody has taken. -/
def unheardIn {α : Type} (earlier : List Signal) (r : Engine × α) : Engine × α :=
  (r.1.unheard earlier, r.2)

theorem unheard_assign (name : String) (x : Float) :
    (e.unheard earlier).assign name x = (e.assign name x).unheard earlier := by
  unfold assign
  split
  · rfl
  · rfl

theorem unheard_stepAction (i : Instruction) :
    (e.unheard earlier).stepAction t i dt = unheardIn earlier (e.stepAction t i dt) := by
  have begins : (e.unheard earlier).beginAction? i = e.beginAction? i := by cases i <;> rfl
  have tick : (e.unheard earlier).tickCount = e.tickCount := rfl
  unfold stepAction
  rw [begins]
  split
  · rfl
  · dsimp only
    rw [tick]
    split
    · rfl
    · rfl

theorem unheard_stepWaiting (ids : List Nat) :
    (e.unheard earlier).stepWaiting t ids = unheardIn earlier (e.stepWaiting t ids) := by
  have live : (e.unheard earlier).isLive = e.isLive := rfl
  unfold stepWaiting
  rw [live]
  split
  · rfl
  · rfl

theorem unheard_stepBroadcastWait (m : Expr) :
    (e.unheard earlier).stepBroadcastWait t m = unheardIn earlier (e.stepBroadcastWait t m) := by
  unfold stepBroadcastWait
  split
  · exact unheard_stepWaiting _
  · exact unheard_stepWaiting (e := ((e.report _).spawn _)) _

theorem unheard_stepInstruction (i : Instruction) :
    (e.unheard earlier).stepInstruction t i dt = unheardIn earlier (e.stepInstruction t i dt) := by
  have store : (e.unheard earlier).store = e.store := rfl
  cases i with
  | move _ | turn _ | wait _ => exact unheard_stepAction _
  | setVar name value | changeVar name delta =>
    simp only [stepInstruction, store, unheard_assign]
    rfl
  | deleteVar name => rfl
  | broadcast m wait =>
    cases wait with
    | true => exact unheard_stepBroadcastWait m
    | false => rfl
  | breakLoop =>
    unfold stepInstruction stepBreak
    dsimp only
    split
    · rfl
    · rfl
  | continueLoop =>
    unfold stepInstruction stepContinue
    dsimp only
    split
    · rfl
    · rfl
  | stopAll => rfl
  | stopThis => rfl
  | unsupported => rfl

theorem unheard_stepCommand (c : Command) :
    (e.unheard earlier).stepCommand t c dt = unheardIn earlier (e.stepCommand t c dt) := by
  have lit : (if c.blockId.isEmpty = true then e.unheard earlier
      else (e.unheard earlier).highlight (some c.blockId)) =
      (if c.blockId.isEmpty = true then e else e.highlight (some c.blockId)).unheard earlier := by
    split
    · rfl
    · rfl
  unfold stepCommand
  dsimp only
  rw [lit]
  generalize (if c.blockId.isEmpty = true then e else e.highlight (some c.blockId)) = e₀
  have store : (e₀.unheard earlier).store = e₀.store := rfl
  cases c with
  | simple id i => exact unheard_stepInstruction i
  | repeatTimes id times body =>
    dsimp only
    rw [store]
    split
    · rfl
    · rfl
  | forever id body => rfl
  | ifThen id cond body =>
    dsimp only
    rw [store]
    split
    · rfl
    · rfl
  | ifElse id cond yes no => rfl

theorem unheard_stepThread :
    (e.unheard earlier).stepThread t dt = unheardIn earlier (e.stepThread t dt) := by
  cases cur : t.current? with
  | none =>
    rw [stepThread_spent cur, stepThread_spent cur]
    rfl
  | some c =>
    rw [stepThread_current cur, stepThread_current cur, unheard_stepCommand c]
    generalize e.stepCommand t c dt = done
    obtain ⟨e', t', result⟩ := done
    cases result <;> rfl

theorem unheard_stepAt (i : Nat) :
    (e.unheard earlier).stepAt i t dt = (e.stepAt i t dt).unheard earlier := by
  unfold stepAt
  rw [unheard_stepThread]
  generalize e.stepThread t dt = done
  obtain ⟨e', t', progress⟩ := done
  dsimp only [unheardIn]
  have running : (e'.unheard earlier).running = e'.running := rfl
  rw [running]
  split
  · rfl
  · rfl

theorem unheard_beginTick (now : Nat) :
    (e.unheard earlier).beginTick now = (e.beginTick now).unheard earlier := by
  have window : (e.unheard earlier).windowStart = e.windowStart := rfl
  unfold beginTick
  dsimp only
  rw [window]
  split
  · rfl
  · rfl

/-- Every move of a tick leaves earlier reports where they are, and is the same without them. -/
theorem lockstep_unheard (earlier : List Signal) :
    Lockstep fun _ e e' => e' = e.unheard earlier where
  view := by
    rintro _ e _ rfl
    exact ⟨rfl, rfl, rfl, rfl, rfl, rfl, rfl⟩
  begins := by
    rintro _ e _ now rfl
    exact unheard_beginTick now
  prunes := by
    rintro _ e _ rfl
    rfl
  counts := by
    rintro _ e _ rfl
    rfl
  requests := by
    rintro _ e _ rfl
    rfl
  ends := by
    rintro _ e _ line rfl
    rfl
  steps := by
    rintro _ _ v t' due rfl listed
    obtain rfl : v.thread = t' := Option.some.inj (due.listed.symm.trans listed)
    refine ⟨?_, unheard_stepAt v.position⟩
    rw [unheard_stepThread, due.progress]
    rfl

/-! ## Operations that never look back -/

/-- Whether earlier reports are still there makes no difference. -/
def NeverLooksBack (f : Engine → Engine) : Prop :=
  ∀ earlier e, f (e.unheard earlier) = (f e).unheard earlier

namespace NeverLooksBack

theorem stop : NeverLooksBack Engine.stop := fun _ _ => rfl

theorem start (now : Nat) : NeverLooksBack (Engine.start · now) := by
  intro earlier e
  have program : (e.unheard earlier).program = e.program := rfl
  have sprite : (e.unheard earlier).sprite = e.sprite := rfl
  unfold Engine.start
  dsimp only
  rw [program, sprite]
  split
  · split
    · rfl
    · rfl
  · rfl

theorem tick (now : Nat) : NeverLooksBack fun e => (e.tick now).1 := by
  intro earlier e
  exact (tick_beside (h := []) (lockstep_unheard earlier) (e := e) rfl now).1

theorem signals_eq {f : Engine → Engine} (h : NeverLooksBack f) (e : Engine) :
    (f e).signals = (f { e with signals := [] }).signals ++ e.signals :=
  congrArg Engine.signals (h e.signals { e with signals := [] })

end NeverLooksBack

theorem tick_outcome_unheard (e : Engine) (earlier : List Signal) (now : Nat) :
    ((e.unheard earlier).tick now).2 = (e.tick now).2 :=
  (tick_beside (h := []) (lockstep_unheard earlier) (e := e) rfl now).2

end Engine

end BlockStage
