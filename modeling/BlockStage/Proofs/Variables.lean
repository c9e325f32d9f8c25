import BlockStage.Proofs.ControlStack
import BlockStage.Proofs.Structured.Semantics

/-! # Writing variables

Of all commands only three change the variables, and each of them changes at most the one it names.
-/
namespace BlockStage

open Structured (written)

namespace Engine

/-- The variables behind a step of a thread. -/
inductive Stores (e : Engine) (t : Thread) : Store → Prop where
  | kept : Stores e t e.store
  | set {id name value} (cur : t.current? = some (.simple id (.setVar name value))) :
      Stores e t (written e.store name (value.evalNumber e.store))
  | changed {id name delta} (cur : t.current? = some (.simple id (.changeVar name delta))) :
      Stores e t (written e.store name (e.store.read name + delta.evalNumber e.store))
  | deleted {id name} (cur : t.current? = some (.simple id (.deleteVar name))) :
      Stores e t (e.store.erase name)

variable {e : Engine} {t : Thread} {dt : Float}

theorem assign_store (e : Engine) (name : String) (x : Float) :
    (e.assign name x).store = written e.store name x := by
  unfold assign written
  split <;> rfl

theorem stepAction_store (i : Instruction) : (e.stepAction t i dt).1.store = e.store := by
  unfold stepAction
  split
  · rfl
  · dsimp only
    split <;> rfl

theorem stepWaiting_store (ids : List Nat) : (e.stepWaiting t ids).1.store = e.store := by
  unfold stepWaiting
  split <;> rfl

theorem stepInstruction_stores {e₀ : Engine} {id : String} {i : Instruction}
    (same : e₀.store = e.store) (cur : t.current? = some (.simple id i)) :
    e.Stores t (e₀.stepInstruction t i dt).1.store := by
  have still : ∀ {s : Store}, s = e₀.store → e.Stores t s := by
    intro s hs
    rw [hs, same]
    exact .kept
  cases i with
  | move _ => exact still (stepAction_store _)
  | turn _ => exact still (stepAction_store _)
  | wait _ => exact still (stepAction_store _)
  | setVar name value =>
    have store : (e₀.stepInstruction t (.setVar name value) dt).1.store =
        written e.store name (value.evalNumber e.store) := by
      rw [← same]
      exact assign_store ..
    rw [store]
    exact .set cur
  | changeVar name delta =>
    have store : (e₀.stepInstruction t (.changeVar name delta) dt).1.store =
        written e.store name (e.store.read name + delta.evalNumber e.store) := by
      rw [← same]
      exact assign_store ..
    rw [store]
    exact .changed cur
  | deleteVar name =>
    have store : (e₀.stepInstruction t (.deleteVar name) dt).1.store = e.store.erase name := by
      rw [← same]
      rfl
    rw [store]
    exact .deleted cur
  | broadcast m wait =>
    cases wait with
    | false => exact still rfl
    | true =>
      apply still
      unfold stepInstruction stepBroadcastWait
      dsimp only
      rw [if_pos rfl]
      split
      · exact stepWaiting_store _
      · rw [stepWaiting_store]
        rfl
  | breakLoop =>
    apply still
    unfold stepInstruction stepBreak
    dsimp only
    split <;> rfl
  | continueLoop =>
    apply still
    unfold stepInstruction stepContinue
    dsimp only
    split <;> rfl
  | stopAll => exact still rfl
  | stopThis => exact still rfl
  | unsupported => exact still rfl

theorem stepCommand_stores {c : Command} (cur : t.current? = some c) :
    e.Stores t (e.stepCommand t c dt).1.store := by
  have highlighted := (e.lit_quiet c.blockId).2.1
  unfold lit at highlighted
  unfold stepCommand
  dsimp only
  generalize (if c.blockId.isEmpty = true then e else e.highlight (some c.blockId)) = e₀
    at highlighted ⊢
  have still : e.Stores t e₀.store := by
    rw [highlighted]
    exact .kept
  cases c with
  | simple id i => exact stepInstruction_stores highlighted cur
  | repeatTimes id times body =>
    dsimp only
    split <;> exact still
  | forever id body => exact still
  | ifThen id cond body =>
    dsimp only
    split <;> exact still
  | ifElse id cond yes no => exact still

theorem stepThread_spent (spent : t.current? = none) :
    e.stepThread t dt = (e, t.finishBody, true) := by
  unfold stepThread Thread.finishBody
  cases top : t.frames with
  | nil => rfl
  | cons f fs =>
    have behind : f.current? = none := by simpa [Thread.current?, top] using spent
    dsimp only
    rw [behind]

theorem stepThread_stores (e : Engine) (t : Thread) (dt : Float) :
    e.Stores t (e.stepThread t dt).1.store := by
  cases cur : t.current? with
  | none =>
    rw [stepThread_spent cur]
    exact .kept
  | some c =>
    rw [stepThread_current cur]
    generalize done : e.stepCommand t c dt = r
    have stores : e.Stores t (e.stepCommand t c dt).1.store := stepCommand_stores cur
    rw [done] at stores
    obtain ⟨e', t', result⟩ := r
    cases result <;> exact stores

theorem stepAt_store (e : Engine) (i : Nat) (t : Thread) (dt : Float) :
    (e.stepAt i t dt).store = (e.stepThread t dt).1.store := by
  unfold stepAt
  generalize e.stepThread t dt = done
  obtain ⟨e', t', progress⟩ := done
  dsimp only
  split <;> rfl

@[simp] theorem beginTick_store (e : Engine) (now : Nat) : (e.beginTick now).store = e.store := by
  obtain ⟨_, _, h⟩ := e.beginTick_eq now
  rw [h]

@[simp] theorem start_store (e : Engine) (now : Nat) : (e.start now).store = e.store := by
  unfold start
  split
  · split <;> rfl
  · rfl

end Engine

theorem Visit.after_stores (v : Visit) : v.engine.Stores v.thread v.after.store := by
  rw [after, Engine.stepAt_store]
  exact Engine.stepThread_stores ..

end BlockStage
