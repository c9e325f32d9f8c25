import Mathlib.Data.List.TakeWhile
import Mathlib.Logic.Function.Iterate
import BlockStage.Proofs.Structured.Semantics

/-! # Fibers

A `Fiber` is what a lone thread of sequential commands consists of: its frames, the variables and
what the observer was told. It moves by single steps, as a thread does, until it is final.
-/
namespace BlockStage

namespace Command

theorem self_mem_preorder (c : Command) : c ∈ c.preorder := by
  cases c <;> simp [preorder]

theorem mem_preorder_of_body {c d : Command} {body : List Command} (inside : body ∈ c.bodies)
    (h : d ∈ preorderList body) : d ∈ c.preorder := by
  cases c <;> simp_all [bodies, preorder]
  rcases inside with rfl | rfl <;> simp [h]

theorem mem_preorderList {c d : Command} {cs : List Command} (hc : c ∈ cs) (h : d ∈ c.preorder) :
    d ∈ preorderList cs := by
  induction cs with
  | nil => cases hc
  | cons c' cs ih =>
    rcases List.mem_cons.mp hc with rfl | hc
    · exact List.mem_append_left _ h
    · exact List.mem_append_right _ (ih hc)

end Command

namespace Structured

/-- The frames behind the command at which they stand. -/
def pass : List Frame → List Frame
  | [] => []
  | f :: fs => f.advance :: fs

def close : List Frame → List Frame
  | [] => []
  | f :: fs =>
    match f.kind with
    | .seq => pass fs
    | .forever => { f with ip := 0 } :: fs
    | .counted i n =>
      if i + 1 < n then { f with ip := 0, kind := .counted (i + 1) n } :: fs else pass fs

def inLoop (frames : List Frame) : Bool := frames.any (fun f => f.kind.isLoop)

def fromLoop (frames : List Frame) : List Frame := frames.dropWhile (fun f => !f.kind.isLoop)

def leave : Outcome → List Frame → List Frame
  | .normal, frames => pass frames
  | .broken, frames => pass (fromLoop frames).tail
  | .continued, frames => close (fromLoop frames)
  | .stopped _, _ => []

/-- The frames behind the innermost list with the given outcome. -/
def quit : Outcome → List Frame → List Frame
  | .normal, frames => close frames
  | o, frames => leave o frames

def Outcome.halts : Outcome → Bool
  | .stopped all => all
  | _ => false

structure Fiber where
  store : Store
  /-- What the observer was told, the newest first. -/
  told : List Signal
  frames : List Frame
  halted : Bool := false

namespace Fiber

def Final (x : Fiber) : Prop := x.halted = true ∨ x.frames = []

def tell (x : Fiber) (τ : List Signal) : Fiber := { x with told := τ.reverse ++ x.told }

def enter (x : Fiber) (kind : FrameKind) (body : List Command) : Fiber :=
  { x with frames := { kind := kind, commands := body } :: x.frames }

def leave (x : Fiber) (o : Outcome) : Fiber :=
  { x with frames := Structured.leave o x.frames, halted := o.halts }

def begin (x : Fiber) : Command → Fiber
  | .simple _ i =>
    match instruct (inLoop x.frames) x.store i with
    | (o, s, τ) => ({ x with store := s }.tell τ).leave o
  | .repeatTimes _ times body =>
    let n := Engine.loopCount (times.evalNumber x.store)
    if n = 0 then x.leave .normal else x.enter (.counted 0 n) body
  | .forever _ body => x.enter .forever body
  | .ifThen _ cond body =>
    if cond.evalCondition x.store then x.enter .seq body else x.leave .normal
  | .ifElse _ cond yes no => x.enter .seq (if cond.evalCondition x.store then yes else no)

/-- One step; nothing follows a final state. -/
def step (x : Fiber) : Fiber :=
  if x.halted then x
  else
    match x.frames with
    | [] => x
    | f :: _ =>
      match f.current? with
      | none => { x with frames := close x.frames }
      | some c => (x.tell (shown c.blockId)).begin c

/-- So many steps or more lead from one state to the other. -/
def Reaches (n : Nat) (x y : Fiber) : Prop := ∃ k, n ≤ k ∧ step^[k] x = y

namespace Reaches

variable {m n : Nat} {x y z : Fiber}

theorem refl (x : Fiber) : Reaches 0 x x := ⟨0, Nat.le_refl 0, rfl⟩

theorem step (x : Fiber) : Reaches 1 x x.step := ⟨1, Nat.le_refl 1, rfl⟩

theorem mono (h : Reaches n x y) (le : m ≤ n) : Reaches m x y := by
  obtain ⟨k, hk, run⟩ := h
  exact ⟨k, Nat.le_trans le hk, run⟩

theorem trans (h : Reaches m x y) (h' : Reaches n y z) : Reaches (m + n) x z := by
  obtain ⟨k, hk, rfl⟩ := h
  obtain ⟨k', hk', rfl⟩ := h'
  exact ⟨k' + k, by omega, Function.iterate_add_apply Fiber.step k' k x⟩

theorem andThen (h : Reaches 1 x y) (h' : Reaches 1 y z) : Reaches 1 x z :=
  (h.trans h').mono (Nat.le_add_right 1 1)

end Reaches

end Fiber

section Frames

variable {f : Frame} {fs : List Frame}

theorem fromLoop_loop (loop : f.kind.isLoop = true) : fromLoop (f :: fs) = f :: fs := by
  simp [fromLoop, loop]

theorem fromLoop_seq (seq : f.kind = .seq) : fromLoop (f :: fs) = fromLoop fs := by
  simp [fromLoop, seq, FrameKind.isLoop]

theorem inLoop_loop (loop : f.kind.isLoop = true) : inLoop (f :: fs) = true := by
  simp [inLoop, loop]

theorem fromLoop_eq_nil_iff {frames : List Frame} :
    fromLoop frames = [] ↔ inLoop frames = false := by
  simp [fromLoop, inLoop, List.dropWhile_eq_nil_iff]

theorem inLoop_of_fromLoop {frames : List Frame} (h : fromLoop frames = f :: fs) :
    inLoop frames = true := by
  by_contra none
  rw [Bool.not_eq_true, ← fromLoop_eq_nil_iff, h] at none
  cases none

theorem inLoop_seq (seq : f.kind = .seq) : inLoop (f :: fs) = inLoop fs := by
  simp [inLoop, seq, FrameKind.isLoop]

theorem quit_seq (seq : f.kind = .seq) (o : Outcome) : quit o (f :: fs) = leave o fs := by
  cases o with
  | normal => simp [quit, close, leave, seq]
  | broken => simp [quit, leave, fromLoop_seq seq]
  | continued => simp [quit, leave, fromLoop_seq seq]
  | stopped all => rfl

theorem quit_broken (loop : f.kind.isLoop = true) : quit .broken (f :: fs) = leave .normal fs := by
  simp [quit, leave, fromLoop_loop loop]

theorem quit_continued (loop : f.kind.isLoop = true) :
    quit .continued (f :: fs) = close (f :: fs) := by
  simp [quit, leave, fromLoop_loop loop]

theorem close_moved (f : Frame) (fs : List Frame) (i : Nat) :
    close ({ f with ip := i } :: fs) = close (f :: fs) := rfl

theorem quit_advance (o : Outcome) : quit o (f.advance :: fs) = quit o (f :: fs) := by
  cases kind : f.kind with
  | seq => rw [quit_seq kind, quit_seq (f := f.advance) kind]
  | forever =>
    cases o <;> simp [quit, leave, fromLoop, Frame.advance, kind, FrameKind.isLoop, close]
  | counted i n =>
    cases o <;> simp [quit, leave, fromLoop, Frame.advance, kind, FrameKind.isLoop, close]

end Frames

namespace Fiber

theorem begin_simple {x : Fiber} {id : String} {i : Instruction} {o : Outcome} {s : Store}
    {τ : List Signal} (act : instruct (inLoop x.frames) x.store i = (o, s, τ)) :
    x.begin (.simple id i) = ({ x with store := s }.tell τ).leave o := by
  simp [begin, act]

theorem step_final {x : Fiber} (final : x.Final) : x.step = x := by
  unfold step
  rcases final with halted | bare
  · rw [if_pos halted]
  · rw [bare]
    split <;> rfl

theorem iterate_final {x : Fiber} (final : x.Final) (k : Nat) : step^[k] x = x :=
  Function.iterate_fixed (step_final final) k

theorem told_begin (x : Fiber) (c : Command) : x.told <:+ (x.begin c).told := by
  cases c with
  | simple id i => exact List.suffix_append _ _
  | repeatTimes id times body =>
    simp only [begin]
    split <;> exact List.suffix_rfl
  | forever id body => exact List.suffix_rfl
  | ifThen id cond body =>
    simp only [begin]
    split <;> exact List.suffix_rfl
  | ifElse id cond yes no => exact List.suffix_rfl

theorem told_step (x : Fiber) : x.told <:+ x.step.told := by
  unfold step
  split
  · exact List.suffix_rfl
  · split
    · exact List.suffix_rfl
    · split
      · exact List.suffix_rfl
      next c _ =>
        have shows : x.told <:+ (x.tell (shown c.blockId)).told := List.suffix_append _ _
        exact shows.trans (told_begin _ _)

theorem told_iterate (x : Fiber) {j k : Nat} (le : j ≤ k) :
    (step^[j] x).told <:+ (step^[k] x).told := by
  induction le with
  | refl => exact List.suffix_rfl
  | step _ ih =>
    rw [Function.iterate_succ_apply']
    exact ih.trans (told_step _)

theorem iterate_of_final {x : Fiber} {j k : Nat} (final : (step^[j] x).Final) (le : j ≤ k) :
    step^[k] x = step^[j] x := by
  obtain ⟨d, rfl⟩ := Nat.exists_eq_add_of_le le
  rw [Nat.add_comm, Function.iterate_add_apply, iterate_final final]

theorem final_unique {x : Fiber} {j k : Nat} (hj : (step^[j] x).Final) (hk : (step^[k] x).Final) :
    step^[j] x = step^[k] x := by
  rcases Nat.le_total j k with le | le
  · exact (iterate_of_final hj le).symm
  · exact iterate_of_final hk le

def start (commands : List Command) (s : Store) (σ : List Signal) : Fiber :=
  ⟨s, σ, [{ kind := .seq, commands := commands }], false⟩

end Fiber

/-- The frames are on lists of sequential commands only. -/
def Sequential (frames : List Frame) : Prop :=
  ∀ f ∈ frames, ∀ c ∈ Command.preorderList f.commands, c.isSequential = true

namespace Sequential

variable {f : Frame} {fs frames : List Frame}

theorem tail (h : Sequential (f :: fs)) : Sequential fs :=
  fun g hg => h g (List.mem_cons_of_mem f hg)

theorem cons {g : Frame} (hg : ∀ c ∈ Command.preorderList g.commands, c.isSequential = true)
    (h : Sequential fs) : Sequential (g :: fs) := by
  intro k hk
  rcases List.mem_cons.mp hk with rfl | hk
  · exact hg
  · exact h k hk

theorem pass (h : Sequential frames) : Sequential (pass frames) := by
  cases frames with
  | nil => exact h
  | cons f fs => exact h.tail.cons (h f List.mem_cons_self)

theorem close (h : Sequential frames) : Sequential (close frames) := by
  cases frames with
  | nil => exact h
  | cons f fs =>
    have top := h f List.mem_cons_self
    simp only [Structured.close]
    split
    · exact h.tail.pass
    · exact h.tail.cons top
    · split
      · exact h.tail.cons top
      · exact h.tail.pass

theorem fromLoop (h : Sequential frames) : Sequential (fromLoop frames) :=
  fun f hf => h f ((List.dropWhile_sublist _).subset hf)

theorem leave (h : Sequential frames) (o : Outcome) : Sequential (leave o frames) := by
  cases o with
  | normal => exact h.pass
  | broken => exact Sequential.pass fun f hf => h.fromLoop f (List.mem_of_mem_tail hf)
  | continued => exact h.fromLoop.close
  | stopped all => intro f hf; cases hf

theorem current {c : Command} (h : Sequential (f :: fs)) (cur : f.current? = some c) :
    ∀ d ∈ c.preorder, d.isSequential = true :=
  fun d hd => h f List.mem_cons_self d (Command.mem_preorderList (List.mem_of_getElem? cur) hd)

theorem begin {x : Fiber} {c : Command} (h : Sequential x.frames)
    (hc : ∀ d ∈ c.preorder, d.isSequential = true) : Sequential (x.begin c).frames := by
  have enter : ∀ kind, ∀ body ∈ c.bodies, Sequential (x.enter kind body).frames :=
    fun kind body inside => h.cons fun d hd => hc d (Command.mem_preorder_of_body inside hd)
  cases c with
  | simple id i => exact h.leave _
  | repeatTimes id times body =>
    simp only [Fiber.begin]
    split
    · exact h.leave .normal
    · exact enter _ body (by simp [Command.bodies])
  | forever id body => exact enter _ body (by simp [Command.bodies])
  | ifThen id cond body =>
    simp only [Fiber.begin]
    split
    · exact enter _ body (by simp [Command.bodies])
    · exact h.leave .normal
  | ifElse id cond yes no => exact enter _ _ (by simp only [Command.bodies]; split <;> simp)

theorem step {x : Fiber} (h : Sequential x.frames) : Sequential x.step.frames := by
  unfold Fiber.step
  split
  · exact h
  · split
    · exact h
    next f fs frames =>
      rw [frames] at h
      split
      · exact frames ▸ h.close
      next c cur =>
        have told : (x.tell (shown c.blockId)).frames = f :: fs := frames
        exact Sequential.begin (told ▸ h) (h.current cur)

end Sequential

end Structured

namespace Thread

open Structured (pass close)

theorem advance_frames (t : Thread) : t.advance.frames = pass t.frames := by
  unfold advance
  split
  next bare => rw [bare]; rfl
  next top => rw [top]; rfl

theorem resume_frames (t : Thread) (frames : List Frame) :
    (t.resume frames).frames = pass frames := by
  cases frames <;> rfl

theorem finishBody_frames (t : Thread) : t.finishBody.frames = close t.frames := by
  cases top : t.frames with
  | nil => simp [finishBody, top, close]
  | cons f fs =>
    simp only [finishBody, top, close]
    cases f.kind with
    | seq => exact t.resume_frames fs
    | forever => rfl
    | counted i n =>
      dsimp only
      split
      · rfl
      · exact t.resume_frames fs

end Thread

end BlockStage
