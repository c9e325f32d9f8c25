import BlockStage.Proofs.ControlStack
import BlockStage.Proofs.Dict
import BlockStage.Proofs.Lockstep
import BlockStage.Proofs.Variables

/-! # Deleted variables

A variable that is not there reads as zero. Nothing in a run looks into the store in another way
than by reading, so stores that read the same cannot be told apart: a run goes on in the same way
from both, and they read the same ever after. A variable that has been deleted is like one that
holds zero.
-/
namespace BlockStage

/-- The stores read the same, whatever they hold. -/
def Store.ReadsAs (s s' : Store) : Prop := ∀ name, s.read name = s'.read name

namespace Store.ReadsAs

variable {s s' : Store}

theorem eval (h : s.ReadsAs s') (e : Expr) : e.eval s = e.eval s' := by
  induction e with
  | var name => simp only [Expr.eval, h name]
  | bin op l r ihl ihr => simp only [Expr.eval, ihl, ihr]
  | cmp op l r ihl ihr => simp only [Expr.eval, ihl, ihr]
  | logic op l r ihl ihr => simp only [Expr.eval, ihl, ihr]
  | _ => rfl

theorem evalNumber (h : s.ReadsAs s') (e : Expr) : e.evalNumber s = e.evalNumber s' :=
  congrArg Val.toNumber (h.eval e)

theorem evalCondition (h : s.ReadsAs s') (e : Expr) : e.evalCondition s = e.evalCondition s' :=
  congrArg Val.truthy (h.eval e)

theorem insert (h : s.ReadsAs s') (name : String) (x : Float) :
    ReadsAs (s.insert name x) (s'.insert name x) := by
  intro other
  by_cases same : other = name
  · rw [same, read, read, Dict.find?_insert_self, Dict.find?_insert_self]
  · rw [read, read, Dict.find?_insert_ne _ same, Dict.find?_insert_ne _ same]
    exact h other

theorem erase (h : s.ReadsAs s') (name : String) : ReadsAs (s.erase name) (s'.erase name) := by
  intro other
  by_cases same : other = name
  · rw [same, read, read, Dict.find?_erase_self, Dict.find?_erase_self]
  · rw [read, read, Dict.find?_erase_ne _ same, Dict.find?_erase_ne _ same]
    exact h other

end Store.ReadsAs

/-- Deleting a variable reads like setting it to zero. -/
theorem Store.erase_readsAs (s : Store) (name : String) :
    ReadsAs (s.erase name) (s.insert name 0) := by
  intro other
  by_cases same : other = name
  · rw [same, read, read, Dict.find?_erase_self, Dict.find?_insert_self]
    rfl
  · rw [read, read, Dict.find?_erase_ne _ same, Dict.find?_insert_ne _ same]

namespace Engine

/-- Nothing differs but the stores, and these read the same. -/
def Mirrors (e e' : Engine) : Prop := ∃ s : Store, e' = { e with store := s } ∧ s.ReadsAs e.store

/-- The results of a step in engines that mirror each other. -/
def MirrorsIn {α : Type} (r r' : Engine × α) : Prop := r.1.Mirrors r'.1 ∧ r'.2 = r.2

namespace Mirrors

variable {e e' : Engine} {t : Thread} {dt : Float}

theorem map {f : Engine → Engine} (h : e.Mirrors e') (kept : ∀ e, (f e).store = e.store)
    (blind : ∀ e s, f { e with store := s } = { f e with store := s }) :
    (f e).Mirrors (f e') := by
  obtain ⟨s, rfl, same⟩ := h
  refine ⟨s, blind e s, ?_⟩
  rw [kept]
  exact same

theorem report (h : e.Mirrors e') (line : String) : (e.report line).Mirrors (e'.report line) :=
  h.map (f := fun e => e.report line) (fun _ => rfl) fun _ _ => rfl

theorem highlight (h : e.Mirrors e') (block : Option String) :
    (e.highlight block).Mirrors (e'.highlight block) :=
  h.map (f := fun e => e.highlight block) (fun _ => rfl) fun _ _ => rfl

theorem spawn (h : e.Mirrors e') (scripts : List Script) :
    (e.spawn scripts).Mirrors (e'.spawn scripts) :=
  h.map (f := fun e => e.spawn scripts) (fun _ => rfl) fun _ _ => rfl

theorem stop (h : e.Mirrors e') : e.stop.Mirrors e'.stop :=
  h.map (f := Engine.stop) (fun _ => rfl) fun _ _ => rfl

theorem assign (h : e.Mirrors e') (name : String) (x : Float) :
    (e.assign name x).Mirrors (e'.assign name x) := by
  obtain ⟨s, rfl, same⟩ := h
  unfold Engine.assign
  split
  · exact ⟨s, rfl, same⟩
  · exact ⟨_, rfl, same.insert name x⟩

theorem lit (h : e.Mirrors e') (id : String) : (e.lit id).Mirrors (e'.lit id) := by
  unfold Engine.lit
  split
  · exact h
  · exact h.highlight _

theorem stepAction (h : e.Mirrors e') (i : Instruction) :
    MirrorsIn (e.stepAction t i dt) (e'.stepAction t i dt) := by
  obtain ⟨s, rfl, same⟩ := h
  have begins : ({ e with store := s } : Engine).beginAction? i = e.beginAction? i := by
    cases i <;> simp only [beginAction?, same.evalNumber]
  unfold Engine.stepAction
  rw [begins]
  split
  · exact ⟨⟨s, rfl, same⟩, rfl⟩
  · dsimp only
    split
    · exact ⟨⟨s, rfl, same⟩, rfl⟩
    · exact ⟨⟨s, rfl, same⟩, rfl⟩

theorem stepWaiting (h : e.Mirrors e') (ids : List Nat) :
    MirrorsIn (e.stepWaiting t ids) (e'.stepWaiting t ids) := by
  obtain ⟨s, rfl, same⟩ := h
  have live : ({ e with store := s } : Engine).isLive = e.isLive := rfl
  unfold Engine.stepWaiting
  rw [live]
  split
  · exact ⟨⟨s, rfl, same⟩, rfl⟩
  · exact ⟨⟨s, rfl, same⟩, rfl⟩

theorem stepBroadcast (h : e.Mirrors e') (m : Expr) :
    MirrorsIn (e.stepBroadcast t m) (e'.stepBroadcast t m) := by
  obtain ⟨s, rfl, same⟩ := h
  unfold Engine.stepBroadcast
  rw [same.eval m]
  exact ⟨⟨s, rfl, same⟩, rfl⟩

theorem stepBroadcastWait (h : e.Mirrors e') (m : Expr) :
    MirrorsIn (e.stepBroadcastWait t m) (e'.stepBroadcastWait t m) := by
  unfold Engine.stepBroadcastWait
  split
  · exact h.stepWaiting _
  · obtain ⟨s, rfl, same⟩ := h
    rw [same.eval m]
    have called : ({ e with store := s } : Engine).handlersFor = e.handlersFor := rfl
    rw [called]
    have mirrors : e.Mirrors { e with store := s } := ⟨s, rfl, same⟩
    exact ((mirrors.report _).spawn _).stepWaiting _

theorem stepBreak (h : e.Mirrors e') : MirrorsIn (e.stepBreak t) (e'.stepBreak t) := by
  unfold Engine.stepBreak
  split
  · exact ⟨h.report _, rfl⟩
  · exact ⟨h, rfl⟩

theorem stepContinue (h : e.Mirrors e') : MirrorsIn (e.stepContinue t) (e'.stepContinue t) := by
  unfold Engine.stepContinue
  split
  · exact ⟨h.report _, rfl⟩
  · exact ⟨h, rfl⟩

theorem stepInstruction (h : e.Mirrors e') (i : Instruction) :
    MirrorsIn (e.stepInstruction t i dt) (e'.stepInstruction t i dt) := by
  have mirrors := h
  obtain ⟨s, rfl, same⟩ := h
  cases i with
  | move _ | turn _ | wait _ => exact mirrors.stepAction _
  | setVar name value =>
    simp only [Engine.stepInstruction, same.evalNumber]
    exact ⟨(mirrors.assign _ _).report _, rfl⟩
  | changeVar name delta =>
    simp only [Engine.stepInstruction, same.evalNumber, same name]
    exact ⟨(mirrors.assign _ _).report _, rfl⟩
  | deleteVar name => exact ⟨⟨_, rfl, same.erase name⟩, rfl⟩
  | broadcast m wait =>
    cases wait with
    | true => exact mirrors.stepBroadcastWait m
    | false => exact mirrors.stepBroadcast m
  | breakLoop => exact mirrors.stepBreak
  | continueLoop => exact mirrors.stepContinue
  | stopAll => exact ⟨(mirrors.report _).stop, rfl⟩
  | stopThis => exact ⟨mirrors.report _, rfl⟩
  | unsupported => exact ⟨mirrors, rfl⟩

theorem stepCommand (h : e.Mirrors e') (c : Command) :
    MirrorsIn (e.stepCommand t c dt) (e'.stepCommand t c dt) := by
  have lit := h.lit c.blockId
  unfold Engine.lit at lit
  unfold Engine.stepCommand
  dsimp only
  generalize (if c.blockId.isEmpty = true then e else e.highlight (some c.blockId)) = e₀ at lit ⊢
  generalize (if c.blockId.isEmpty = true then e' else e'.highlight (some c.blockId)) = e₀'
    at lit ⊢
  have mirrors := lit
  obtain ⟨s, rfl, same⟩ := lit
  cases c with
  | simple id i => exact mirrors.stepInstruction i
  | repeatTimes id times body =>
    dsimp only
    rw [same.evalNumber times]
    split
    · exact ⟨mirrors, rfl⟩
    · exact ⟨mirrors, rfl⟩
  | forever id body => exact ⟨mirrors, rfl⟩
  | ifThen id cond body =>
    dsimp only
    rw [same.evalCondition cond]
    split
    · exact ⟨mirrors, rfl⟩
    · exact ⟨mirrors, rfl⟩
  | ifElse id cond yes no =>
    dsimp only
    rw [same.evalCondition cond]
    exact ⟨mirrors, rfl⟩

theorem stepThread (h : e.Mirrors e') :
    MirrorsIn (e.stepThread t dt) (e'.stepThread t dt) := by
  cases cur : t.current? with
  | none =>
    rw [stepThread_spent cur, stepThread_spent cur]
    exact ⟨h, rfl⟩
  | some c =>
    rw [stepThread_current cur, stepThread_current cur]
    have step : MirrorsIn (e.stepCommand t c dt) (e'.stepCommand t c dt) := h.stepCommand c
    obtain ⟨mirrors, rest⟩ := step
    generalize e.stepCommand t c dt = r at mirrors rest ⊢
    generalize e'.stepCommand t c dt = r' at mirrors rest ⊢
    obtain ⟨e₁, t₁, result⟩ := r
    obtain ⟨e₁', _⟩ := r'
    obtain rfl := rest
    cases result <;> exact ⟨mirrors, rfl⟩

theorem stepAt (h : e.Mirrors e') (i : Nat) : (e.stepAt i t dt).Mirrors (e'.stepAt i t dt) := by
  unfold Engine.stepAt
  have step : MirrorsIn (e.stepThread t dt) (e'.stepThread t dt) := h.stepThread
  obtain ⟨mirrors, rest⟩ := step
  generalize e.stepThread t dt = r at mirrors rest ⊢
  generalize e'.stepThread t dt = r' at mirrors rest ⊢
  obtain ⟨e₁, t₁, progress⟩ := r
  obtain ⟨e₁', _⟩ := r'
  obtain rfl := rest
  obtain ⟨s, rfl, same⟩ := mirrors
  dsimp only
  split
  · exact ⟨s, rfl, same⟩
  · exact ⟨s, rfl, same⟩

theorem beginTick (h : e.Mirrors e') (now : Nat) :
    (e.beginTick now).Mirrors (e'.beginTick now) := by
  apply h.map fun e => e.beginTick_store now
  intro e s
  unfold Engine.beginTick
  dsimp only
  split
  · rfl
  · rfl

theorem start (h : e.Mirrors e') (now : Nat) : (e.start now).Mirrors (e'.start now) := by
  apply h.map fun e => e.start_store now
  intro e s
  unfold Engine.start
  dsimp only
  split
  · split
    · rfl
    · rfl
  · rfl

theorem perform (h : e.Mirrors e') (op : Operation) (noTick : ∀ now, op ≠ .tick now) :
    (e.perform op).Mirrors (e'.perform op) := by
  cases op with
  | load p => exact h.map (f := fun e => e.load p) (fun _ => rfl) fun _ _ => rfl
  | bind actor => exact h.map (f := fun e => e.bind actor) (fun _ => rfl) fun _ _ => rfl
  | start now => exact h.start now
  | stop => exact h.stop
  | tick now => exact absurd rfl (noTick now)

end Mirrors

theorem lockstep_mirrors : Lockstep fun _ => Mirrors where
  view := by
    rintro _ e _ ⟨s, rfl, _⟩
    exact ⟨rfl, rfl, rfl, rfl, rfl, rfl, rfl⟩
  begins now mirrors := mirrors.beginTick now
  prunes mirrors := mirrors.map (f := fun e => { e with threads := e.liveThreads })
    (fun _ => rfl) fun _ _ => rfl
  counts mirrors := mirrors.map (f := fun e => { e with opsThisSecond := e.opsThisSecond + 1 })
    (fun _ => rfl) fun _ _ => rfl
  requests mirrors := mirrors.map (f := fun e => { e with pending := true })
    (fun _ => rfl) fun _ _ => rfl
  ends line mirrors := (mirrors.report line).stop
  steps := by
    intro _ e' v t' due mirrors listed
    have threads : e'.threads = v.engine.threads := by
      obtain ⟨s, rfl, _⟩ := mirrors
      rfl
    rw [threads, due.listed] at listed
    obtain rfl := Option.some.inj listed
    have step : MirrorsIn (v.engine.stepThread v.thread v.dt) (e'.stepThread v.thread v.dt) :=
      mirrors.stepThread
    refine ⟨?_, mirrors.stepAt v.position⟩
    rw [due.progress, step.2]

end Engine

/-- Of two engines that differ only in stores that read the same, every sequence of operations makes
engines of the same kind, and their ticks have the same outcomes: signals, actor, threads and
counters are the same at every point, and the stores read the same. -/
theorem read_equivalent_stores_indistinguishable {e : Engine} {s : Store}
    (same : s.ReadsAs e.store) (ops : List Engine.Operation) :
    let e' := { e with store := s }
    e'.outcomes ops = e.outcomes ops ∧
    ∃ s' : Store, e'.performAll ops = { e.performAll ops with store := s' } ∧
      s'.ReadsAs (e.performAll ops).store := by
  intro e'
  have mirrors : e.Mirrors e' := ⟨s, rfl, same⟩
  obtain ⟨kept, outcomes⟩ := Engine.performAll_beside (h := []) Engine.lockstep_mirrors
    (fun op _ noTick mirrors => mirrors.perform op noTick) mirrors
  exact ⟨outcomes, kept⟩

/-- Reads a variable in a condition, a count and a message, changes it, and deletes it in the
handler. -/
def Program.counter : Program where
  scripts := [⟨"main", [.ifThen "if" (.cmp .eq (.var "x") (.num 0))
      [.simple "up" (.changeVar "x" (.num 2))],
    .repeatTimes "loop" (.var "x") [.simple "go" (.move (.var "x"))],
    .simple "tell" (.broadcast (.var "x") true)]⟩]
  handlers := .ofList [("2", [⟨"heard", [.simple "drop" (.deleteVar "x")]⟩])]

/-- One engine has just deleted the variable, and the other one holds zero. -/
theorem read_equivalent_stores_indistinguishable_deleted :
    let e : Engine := { store := Dict.insert .empty "x" 0 }
    let s : Store := Dict.erase .empty "x"
    let ops : List Engine.Operation := [.load .counter, .bind {}, .start 0, .tick 50000000,
      .tick 100000000, .tick 150000000, .stop]
    s.find? "x" ≠ e.store.find? "x" ∧
    ({ e with store := s } : Engine).outcomes ops = e.outcomes ops ∧
    ∃ s' : Store, ({ e with store := s } : Engine).performAll ops =
        { e.performAll ops with store := s' } ∧
      s'.ReadsAs (e.performAll ops).store := by
  intro e s ops
  refine ⟨by decide +kernel, ?_⟩
  exact read_equivalent_stores_indistinguishable (Store.erase_readsAs .empty "x") ops

end BlockStage
