import BlockStage.Lint.UnsetVariable
import BlockStage.Proofs.Dict
import BlockStage.Proofs.Independence.Motion
import BlockStage.Proofs.Places

/-! # Scripts on their own

`Solo` is a script that runs by itself and for which time does not count: what a thread does in many
polls is one step here. It reads and writes only the variables that its commands use, so it does the
same in every store that gives these variables the same values.
-/
namespace BlockStage

open Structured (pass close leave inLoop instruct written shown Fiber)
open Lint.UnsetVariable (reads)

/-! ## The variables of a script -/

/-- The variable that an instruction writes or removes; the empty name is never written. -/
def Instruction.target? : Instruction → Option String
  | .setVar name _ => if name.isEmpty then none else some name
  | .changeVar name _ | .deleteVar name => some name
  | _ => none

namespace Command

def target? : Command → Option String
  | .simple _ i => i.target?
  | _ => none

def uses (c : Command) : List String :=
  c.target?.toList ++ (c.operand?.map reads).getD []

def isMotion : Command → Bool
  | .simple _ (.move _) | .simple _ (.turn _) => true
  | _ => false

def isStopAll : Command → Bool
  | .simple _ .stopAll => true
  | _ => false

end Command

namespace Script

def allCommands (s : Script) : List Command := Command.preorderList s.commands

def uses (s : Script) : List String := s.allCommands.flatMap Command.uses

def moves (s : Script) : Bool := s.allCommands.any Command.isMotion

end Script

/-- The stores give these variables the same values. -/
def Agree (names : List String) (s s' : Store) : Prop := ∀ n ∈ names, s.find? n = s'.find? n

namespace Agree

variable {names : List String} {s s' : Store}

theorem mono {fewer : List String} (h : Agree names s s') (sub : fewer ⊆ names) :
    Agree fewer s s' :=
  fun n hn => h n (sub hn)

theorem read {name : String} (h : Agree names s s') (mem : name ∈ names) :
    s.read name = s'.read name := by
  rw [Store.read, h name mem, Store.read]

theorem eval {e : Expr} (h : Agree (reads e) s s') : e.eval s = e.eval s' := by
  induction e with
  | var name =>
    have same : s.read name = s'.read name := h.read (List.mem_singleton.mpr rfl)
    simp only [Expr.eval, same]
  | bin op l r ihl ihr =>
    simp only [Expr.eval, ihl (h.mono (List.subset_append_left _ _)),
      ihr (h.mono (List.subset_append_right _ _))]
  | cmp op l r ihl ihr =>
    simp only [Expr.eval, ihl (h.mono (List.subset_append_left _ _)),
      ihr (h.mono (List.subset_append_right _ _))]
  | logic op l r ihl ihr =>
    simp only [Expr.eval, ihl (h.mono (List.subset_append_left _ _)),
      ihr (h.mono (List.subset_append_right _ _))]
  | _ => rfl

theorem evalNumber {e : Expr} (h : Agree (reads e) s s') : e.evalNumber s = e.evalNumber s' := by
  rw [Expr.evalNumber, h.eval, Expr.evalNumber]

theorem evalCondition {e : Expr} (h : Agree (reads e) s s') :
    e.evalCondition s = e.evalCondition s' := by
  rw [Expr.evalCondition, h.eval, Expr.evalCondition]

theorem written (h : Agree names s s') (name : String) (x : Float) :
    Agree names (written s name x) (written s' name x) := by
  intro n hn
  unfold Structured.written
  split
  · exact h n hn
  · by_cases same : n = name
    · rw [same, Dict.find?_insert_self, Dict.find?_insert_self]
    · rw [Dict.find?_insert_ne _ same, Dict.find?_insert_ne _ same, h n hn]

theorem erase (h : Agree names s s') (name : String) :
    Agree names (s.erase name) (s'.erase name) := by
  intro n hn
  by_cases same : n = name
  · rw [same, Dict.find?_erase_self, Dict.find?_erase_self]
  · rw [Dict.find?_erase_ne _ same, Dict.find?_erase_ne _ same, h n hn]

theorem instruct {i : Instruction} {id : String} (h : Agree names s s')
    (sub : (Command.simple id i).uses ⊆ names) (b : Bool) :
    (instruct b s i).1 = (instruct b s' i).1 ∧
      Agree names (instruct b s i).2.1 (instruct b s' i).2.1 := by
  cases i with
  | setVar name value =>
    have operand : Agree (reads value) s s' :=
      h.mono fun n hn => sub (List.mem_append_right _ hn)
    simp only [Structured.instruct, operand.evalNumber]
    exact ⟨trivial, h.written _ _⟩
  | changeVar name delta =>
    have operand : Agree (reads delta) s s' :=
      h.mono fun n hn => sub (List.mem_append_right _ hn)
    have same : s.read name = s'.read name := h.read (sub (List.mem_append_left _ (by
      simp [Command.target?, Instruction.target?])))
    simp only [Structured.instruct, operand.evalNumber, same]
    exact ⟨trivial, h.written _ _⟩
  | deleteVar name => exact ⟨rfl, h.erase name⟩
  | breakLoop => cases b <;> exact ⟨rfl, h⟩
  | continueLoop => cases b <;> exact ⟨rfl, h⟩
  | _ => exact ⟨rfl, h⟩

end Agree

theorem instruct_outside {i : Instruction} {id n : String}
    (outside : n ∉ (Command.simple id i).uses) (b : Bool) (s : Store) :
    (instruct b s i).2.1.find? n = s.find? n := by
  have free : ∀ {name : String} {x : Float}, (name.isEmpty = false → n ≠ name) →
      (written s name x).find? n = s.find? n := by
    intro name x differs
    unfold written
    split
    · rfl
    next filled => exact Dict.find?_insert_ne s (differs (by simpa using filled)) x
  cases i with
  | setVar name value =>
    apply free
    rintro filled rfl
    exact outside (List.mem_append_left _ (by simp [Command.target?, Instruction.target?, filled]))
  | changeVar name delta =>
    apply free
    rintro _ rfl
    exact outside (List.mem_append_left _ (by simp [Command.target?, Instruction.target?]))
  | deleteVar name =>
    apply Dict.find?_erase_ne
    rintro rfl
    exact outside (List.mem_append_left _ (by simp [Command.target?, Instruction.target?]))
  | breakLoop => cases b <;> rfl
  | continueLoop => cases b <;> rfl
  | _ => rfl

/-! ## The steps of a script by itself -/

theorem instruct_halts {i : Instruction} {id : String}
    (other : (Command.simple id i).isStopAll = false) (b : Bool) (s : Store) :
    (instruct b s i).1.halts = false := by
  cases i with
  | stopAll => cases other
  | breakLoop => cases b <;> rfl
  | continueLoop => cases b <;> rfl
  | _ => rfl

namespace Structured.Fiber

def current? (x : Fiber) : Option Command := x.frames.head?.bind Frame.current?

/-- The fibers stand at the same place and give these variables the same values. -/
structure Alike (names : List String) (x y : Fiber) : Prop where
  frames : x.frames = y.frames
  halted : x.halted = y.halted
  store : Agree names x.store y.store

variable {names : List String} {x y : Fiber} {c : Command}

theorem step_of_current (running : x.halted = false) (cur : x.current? = some c) :
    x.step = (x.tell (shown c.blockId)).begin c := by
  unfold current? at cur
  unfold step
  cases frames : x.frames with
  | nil => rw [frames] at cur; cases cur
  | cons f fs =>
    rw [frames] at cur
    have here : f.current? = some c := cur
    simp [running, here]

theorem step_of_spent (running : x.halted = false) (spent : x.current? = none) :
    x.step = { x with frames := close x.frames } := by
  unfold current? at spent
  unfold step
  cases frames : x.frames with
  | nil =>
    obtain ⟨_, _, _, _⟩ := x
    simp_all [close]
  | cons f fs =>
    rw [frames] at spent
    have here : f.current? = none := spent
    simp [running, here]

theorem Alike.begin (h : Alike names x y) (sub : c.uses ⊆ names) :
    Alike names (x.begin c) (y.begin c) := by
  have operand : ∀ {e : Expr}, c.operand? = some e → Agree (reads e) x.store y.store := by
    intro e he
    apply h.store.mono
    intro n hn
    exact sub (List.mem_append_right _ (by simpa [he] using hn))
  have enter : ∀ kind body, Alike names (x.enter kind body) (y.enter kind body) :=
    fun kind body => ⟨by rw [Fiber.enter, h.frames, Fiber.enter], h.halted, h.store⟩
  have leave : Alike names (x.leave .normal) (y.leave .normal) :=
    ⟨by rw [Fiber.leave, h.frames, Fiber.leave], rfl, h.store⟩
  cases c with
  | simple id i =>
    obtain ⟨outcome, store⟩ := h.store.instruct sub (inLoop y.frames)
    simp only [Fiber.begin, h.frames]
    exact ⟨by simp only [Fiber.leave, tell, outcome],
      by simp only [Fiber.leave, outcome], store⟩
  | repeatTimes id times body =>
    simp only [Fiber.begin, (operand rfl).evalNumber]
    split
    · exact leave
    · exact enter _ _
  | forever id body => exact enter _ _
  | ifThen id cond body =>
    simp only [Fiber.begin, (operand rfl).evalCondition]
    split
    · exact enter _ _
    · exact leave
  | ifElse id cond yes no =>
    simp only [Fiber.begin, (operand rfl).evalCondition]
    exact enter _ _

/-- A step depends only on the variables of the command at which it is taken. -/
theorem Alike.step (h : Alike names x y) (sub : ∀ c, x.current? = some c → c.uses ⊆ names) :
    Alike names x.step y.step := by
  have current : x.current? = y.current? := by rw [current?, h.frames, current?]
  by_cases halted : x.halted = true
  · rw [step_final (Or.inl halted), step_final (Or.inl (h.halted ▸ halted))]
    exact h
  · have running : x.halted = false := by simpa using halted
    have running' : y.halted = false := h.halted ▸ running
    cases cur : x.current? with
    | none =>
      rw [step_of_spent running cur, step_of_spent running' (current ▸ cur)]
      exact ⟨by rw [h.frames], h.halted, h.store⟩
    | some c =>
      rw [step_of_current running cur, step_of_current running' (current ▸ cur)]
      have told : Alike names (x.tell (shown c.blockId)) (y.tell (shown c.blockId)) :=
        ⟨h.frames, h.halted, h.store⟩
      exact told.begin (sub c cur)

theorem begin_store (outside : c.uses.Disjoint names) :
    Agree names (x.begin c).store x.store := by
  cases c with
  | simple id i => exact fun n hn => instruct_outside (fun used => outside used hn) _ _
  | repeatTimes id times body =>
    simp only [Fiber.begin]
    split <;> exact fun _ _ => rfl
  | forever id body => exact fun _ _ => rfl
  | ifThen id cond body =>
    simp only [Fiber.begin]
    split <;> exact fun _ _ => rfl
  | ifElse id cond yes no => exact fun _ _ => rfl

theorem step_store (running : x.halted = false)
    (outside : ∀ c, x.current? = some c → c.uses.Disjoint names) :
    Agree names x.step.store x.store := by
  cases cur : x.current? with
  | none =>
    rw [step_of_spent running cur]
    exact fun _ _ => rfl
  | some c =>
    rw [step_of_current running cur]
    exact begin_store (x := x.tell (shown c.blockId)) (outside c cur)

theorem begin_halted (running : x.halted = false) (other : c.isStopAll = false) :
    (x.begin c).halted = false := by
  cases c with
  | simple id i => exact instruct_halts other _ _
  | repeatTimes id times body =>
    simp only [Fiber.begin]
    split
    · rfl
    · exact running
  | forever id body => exact running
  | ifThen id cond body =>
    simp only [Fiber.begin]
    split
    · exact running
    · rfl
  | ifElse id cond yes no => exact running

theorem step_halted (running : x.halted = false)
    (other : ∀ c, x.current? = some c → c.isStopAll = false) : x.step.halted = false := by
  cases cur : x.current? with
  | none =>
    rw [step_of_spent running cur]
    exact running
  | some c =>
    rw [step_of_current running cur]
    exact begin_halted (x := x.tell (shown c.blockId)) running (other c cur)

theorem step_of_not_sequential {id : String} {i : Instruction} (running : x.halted = false)
    (cur : x.current? = some (.simple id i)) (other : i.isSequential = false) :
    x.step.frames = pass x.frames ∧ x.step.halted = false ∧ x.step.store = x.store := by
  rw [step_of_current running cur]
  cases i with
  | move _ => exact ⟨rfl, rfl, rfl⟩
  | turn _ => exact ⟨rfl, rfl, rfl⟩
  | wait _ => exact ⟨rfl, rfl, rfl⟩
  | broadcast _ _ => exact ⟨rfl, rfl, rfl⟩
  | _ => cases other

end Structured.Fiber

structure Solo where
  fiber : Fiber
  sprite : Sprite

namespace Solo

def start (s : Script) (v : Store) (a : Sprite) : Solo := ⟨.start s.commands v [], a⟩

/-- The motion on which the script sets out; most commands let the actor wait. -/
def aim (x : Solo) : Motion :=
  match x.fiber.current? with
  | some (.simple _ i) => i.motion x.fiber.store x.sprite
  | _ => .wait

/-- One step, in which the actor does the whole of the motion. -/
def step (x : Solo) : Solo := ⟨x.fiber.step, x.aim.carry 1 x.sprite⟩

theorem step_of_bare {x : Solo} (bare : x.fiber.frames = []) : x.step = x := by
  have aim : x.aim = .wait := by simp [Solo.aim, Fiber.current?, bare]
  rw [step, aim, Fiber.step_final (Or.inr bare)]
  rfl

theorem iterate_fiber (x : Solo) (k : Nat) : (step^[k] x).fiber = Fiber.step^[k] x.fiber := by
  induction k with
  | zero => rfl
  | succ k ih => rw [Function.iterate_succ_apply', Function.iterate_succ_apply', ← ih, step]

theorem bare_unique {x : Solo} {j k : Nat} (hj : (step^[j] x).fiber.frames = [])
    (hk : (step^[k] x).fiber.frames = []) : step^[j] x = step^[k] x := by
  -- nothing happens behind an end, so the earlier of the two is also the later one
  have later : ∀ {j k}, (step^[j] x).fiber.frames = [] → j ≤ k → step^[k] x = step^[j] x := by
    intro j k bare le
    obtain ⟨d, rfl⟩ := Nat.exists_eq_add_of_le le
    rw [Nat.add_comm, Function.iterate_add_apply, Function.iterate_fixed (step_of_bare bare)]
  rcases Nat.le_total j k with le | le
  · exact (later hj le).symm
  · exact later hk le

end Solo

end BlockStage
