import BlockStage.Proofs.Structured.Fiber

/-! # Command lists on frames

The steps of a fiber run every command list as the semantics says: a list that ends is left with its
outcome, and a list whose loops are given up after some iterations is still being run after as many
steps.
-/
namespace BlockStage.Structured

/-- The frame kinds of a loop with so many iterations left, the current one included. -/
inductive Left : FrameKind → Option Nat → Prop where
  | counted {i m n} (total : i + n = m) (left : 0 < n) : Left (.counted i m) (some n)
  | forever : Left .forever none

theorem Left.isLoop {kind : FrameKind} {n : Option Nat} (h : Left kind n) : kind.isLoop = true := by
  cases h <;> rfl

theorem Left.close {kind : FrameKind} {n : Option Nat} (h : Left kind (n.map (· + 1)))
    (body : List Command) (fs : List Frame) :
    n = some 0 ∧ close (⟨kind, body, 0⟩ :: fs) = leave .normal fs ∨
    ∃ kind', Left kind' n ∧ close (⟨kind, body, 0⟩ :: fs) = ⟨kind', body, 0⟩ :: fs := by
  cases n with
  | none =>
    cases h
    exact Or.inr ⟨.forever, .forever, rfl⟩
  | some n =>
    cases h with
    | @counted i m _ total _ =>
      simp only at total
      by_cases last : n = 0
      · have spent : ¬ i + 1 < m := by omega
        exact Or.inl ⟨by rw [last], by simp [Structured.close, spent, leave]⟩
      · have more : i + 1 < m := by omega
        exact Or.inr ⟨.counted (i + 1) m, .counted (by omega) (by omega),
          by simp [Structured.close, more]⟩

namespace Fiber

variable {f : Frame} {fs : List Frame} {s : Store} {σ : List Signal}

theorem step_close (spent : f.current? = none) :
    step ⟨s, σ, f :: fs, false⟩ = ⟨s, σ, close (f :: fs), false⟩ := by
  simp [step, spent]

theorem step_command {c : Command} (cur : f.current? = some c) :
    step ⟨s, σ, f :: fs, false⟩ =
      begin ⟨s, (shown c.blockId).reverse ++ σ, f :: fs, false⟩ c := by
  simp [step, cur, tell]

theorem Reaches.command (s : Store) (σ : List Signal) (fs : List Frame) {c : Command}
    (cur : f.current? = some c) : Reaches 1 ⟨s, σ, f :: fs, false⟩
      (begin ⟨s, (shown c.blockId).reverse ++ σ, f :: fs, false⟩ c) := by
  have first := Reaches.step ⟨s, σ, f :: fs, false⟩
  rw [step_command cur] at first
  exact first

theorem Reaches.choose {x : Fiber} {body : List Command} {s' : Store} {σ' : List Signal}
    {o : Outcome} {halted : Bool}
    (enters : Reaches 1 x ⟨s, σ, ⟨.seq, body, 0⟩ :: f :: fs, false⟩)
    (runs : Reaches 1 ⟨s, σ, ⟨.seq, body, 0⟩ :: f :: fs, false⟩
      ⟨s', σ', quit o (⟨.seq, body, 0⟩ :: f :: fs), halted⟩) :
    Reaches 1 x ⟨s', σ', Structured.leave o (f :: fs), halted⟩ := by
  rw [quit_seq rfl] at runs
  exact enters.andThen runs

theorem current_of_drop_nil (rest : f.commands.drop f.ip = []) : f.current? = none := by
  simpa [Frame.current?] using rest

theorem current_of_drop_cons {c : Command} {cs : List Command}
    (rest : f.commands.drop f.ip = c :: cs) :
    f.current? = some c ∧ f.advance.commands.drop f.advance.ip = cs := by
  constructor
  · simp [Frame.current?, ← List.head?_drop, rest]
  · simp [Frame.advance, ← List.tail_drop, rest]

end Fiber

theorem Loops.of_zero {body : List Command} {s s' : Store} {o : Outcome} {τ : List Signal}
    (h : Loops body (some 0) s o s' τ) : o = .normal ∧ s' = s ∧ τ = [] := by
  cases h with
  | done => exact ⟨rfl, rfl, rfl⟩
  | @again _ _ n _ _ _ _ _ _ _ left =>
    cases n with
    | none => cases left
    | some n => cases left
  | broke left => exact absurd rfl left
  | stopped left => exact absurd rfl left

mutual

/-- A command that is run is left with its outcome. -/
theorem Runs.reaches {b : Bool} {c : Command} {s s' : Store} {o : Outcome} {τ : List Signal}
    (h : Runs b c s o s' τ) (f : Frame) (fs : List Frame) (σ : List Signal)
    (inside : inLoop (f :: fs) = b) (cur : f.current? = some c) :
    Fiber.Reaches 1 ⟨s, σ, f :: fs, false⟩ ⟨s', τ.reverse ++ σ, leave o (f :: fs), o.halts⟩ := by
  have first := Fiber.Reaches.command s σ fs cur
  match h with
  | .simple act =>
    simpa [Fiber.begin, inside, act, Fiber.tell, Fiber.leave, Command.blockId] using first
  | @Runs.repeatTimes _ id times _ _ _ _ _ loop =>
    by_cases none : Engine.loopCount (times.evalNumber s) = 0
    · have idle := loop
      rw [none] at idle
      obtain ⟨rfl, rfl, rfl⟩ := idle.of_zero
      simpa [Fiber.begin, none, Fiber.leave, Command.blockId] using first
    · have rest := loop.reaches (.counted 0 _) (f :: fs) ((shown id).reverse ++ σ)
        (.counted (Nat.zero_add _) (Nat.pos_of_ne_zero none))
      simp only [Fiber.begin, none, if_false] at first
      simpa using first.andThen rest
  | @Runs.forever _ id _ _ _ _ _ loop =>
    have rest := loop.reaches .forever (f :: fs) ((shown id).reverse ++ σ) .forever
    simpa using first.andThen rest
  | @Runs.ifTrue _ id _ body _ _ _ _ holds run =>
    have rest := run.reaches ⟨.seq, body, 0⟩ (f :: fs) ((shown id).reverse ++ σ)
      ((inLoop_seq rfl).trans inside) rfl
    simp only [Fiber.begin, holds, if_true] at first
    simpa using first.choose rest
  | .ifFalse fails => simpa [Fiber.begin, fails, Fiber.leave, Command.blockId] using first
  | @Runs.thenBranch _ id _ yes _ _ _ _ _ holds run =>
    have rest := run.reaches ⟨.seq, yes, 0⟩ (f :: fs) ((shown id).reverse ++ σ)
      ((inLoop_seq rfl).trans inside) rfl
    simp only [Fiber.begin, holds, if_true] at first
    simpa using first.choose rest
  | @Runs.elseBranch _ id _ _ no _ _ _ _ fails run =>
    have rest := run.reaches ⟨.seq, no, 0⟩ (f :: fs) ((shown id).reverse ++ σ)
      ((inLoop_seq rfl).trans inside) rfl
    simp only [Fiber.begin, fails, Bool.false_eq_true, if_false] at first
    simpa using first.choose rest

theorem RunsAll.reaches {b : Bool} {cs : List Command} {s s' : Store} {o : Outcome}
    {τ : List Signal} (h : RunsAll b cs s o s' τ) (f : Frame) (fs : List Frame) (σ : List Signal)
    (inside : inLoop (f :: fs) = b) (rest : f.commands.drop f.ip = cs) :
    Fiber.Reaches 1 ⟨s, σ, f :: fs, false⟩ ⟨s', τ.reverse ++ σ, quit o (f :: fs), o.halts⟩ := by
  match h with
  | .nil =>
    have first := Fiber.Reaches.step ⟨s, σ, f :: fs, false⟩
    rw [Fiber.step_close (Fiber.current_of_drop_nil rest)] at first
    exact first
  | @RunsAll.cons _ _ _ _ _ τ₁ _ _ _ first others =>
    obtain ⟨cur, after⟩ := Fiber.current_of_drop_cons rest
    -- The frame stands one command further on; the list is left from there as from here.
    have head := first.reaches f fs σ inside cur
    have tail := others.reaches f.advance fs (τ₁.reverse ++ σ) inside after
    rw [quit_advance] at tail
    simpa using head.andThen tail
  | .exit first left =>
    obtain ⟨cur, _⟩ := Fiber.current_of_drop_cons rest
    have leaves : quit o (f :: fs) = leave o (f :: fs) := by
      cases o with
      | normal => exact absurd rfl left
      | _ => rfl
    rw [leaves]
    exact first.reaches f fs σ inside cur

theorem Loops.reaches {body : List Command} {n : Option Nat} {s s' : Store} {o : Outcome}
    {τ : List Signal} (h : Loops body n s o s' τ) (kind : FrameKind) (fs : List Frame)
    (σ : List Signal) (iterations : Left kind n) :
    Fiber.Reaches 1 ⟨s, σ, ⟨kind, body, 0⟩ :: fs, false⟩
      ⟨s', τ.reverse ++ σ, leave o fs, o.halts⟩ := by
  have inside : inLoop (⟨kind, body, 0⟩ :: fs) = true := inLoop_loop iterations.isLoop
  match h with
  | .done => cases iterations with | counted _ some => exact absurd some (Nat.lt_irrefl 0)
  | @Loops.again _ _ _ _ o₁ _ τ₁ _ _ _ left iteration goes rest =>
    subst left
    have once := iteration.reaches ⟨kind, body, 0⟩ fs σ inside rfl
    have closes : quit o₁ (⟨kind, body, 0⟩ :: fs) = close (⟨kind, body, 0⟩ :: fs) ∧
        o₁.halts = false := by
      rcases goes with rfl | rfl
      · exact ⟨rfl, rfl⟩
      · exact ⟨quit_continued iterations.isLoop, rfl⟩
    rw [closes.1, closes.2] at once
    -- A frame asks for a further iteration at the end of its list, the semantics at the beginning:
    -- the last iteration leaves the loop, and nothing is left of the derivation.
    rcases iterations.close body fs with ⟨rfl, last⟩ | ⟨kind', more, next⟩
    · obtain ⟨rfl, rfl, rfl⟩ := rest.of_zero
      rw [last] at once
      simpa [Outcome.halts] using once
    · rw [next] at once
      have others := rest.reaches kind' fs (τ₁.reverse ++ σ) more
      simpa using once.andThen others
  | .broke _ iteration =>
    have once := iteration.reaches ⟨kind, body, 0⟩ fs σ inside rfl
    rw [quit_broken iterations.isLoop] at once
    exact once
  | .stopped _ iteration => exact iteration.reaches ⟨kind, body, 0⟩ fs σ inside rfl

end

/-- The state of a list that is still being run: what it has come to is the given result. -/
structure Unfinished (r : Result) (σ : List Signal) (x : Fiber) : Prop where
  running : ¬ x.Final
  store : x.store = r.store
  told : x.told = r.trace.reverse ++ σ

theorem Unfinished.behind {r : Result} {τ σ : List Signal} {x : Fiber}
    (h : Unfinished r (τ.reverse ++ σ) x) : Unfinished (r.behind τ) σ x :=
  ⟨h.running, h.store, by simp [h.told, Result.behind]⟩

/-- From the state, so many steps or more lead to one at which the result is given up. -/
def Lasts (n : Nat) (r : Result) (x : Fiber) : Prop :=
  ∃ y, Fiber.Reaches n x y ∧ Unfinished r x.told y

theorem Lasts.after {n : Nat} {r : Result} {x : Fiber} {s : Store} {τ : List Signal}
    {frames : List Frame} {halted : Bool}
    (first : Fiber.Reaches 1 x ⟨s, τ.reverse ++ x.told, frames, halted⟩)
    (h : Lasts n r ⟨s, τ.reverse ++ x.told, frames, halted⟩) : Lasts (n + 1) (r.behind τ) x := by
  obtain ⟨y, run, unfinished⟩ := h
  rw [Nat.add_comm]
  exact ⟨y, first.trans run, unfinished.behind⟩

theorem Lasts.mono {m n : Nat} {r : Result} {x : Fiber} (h : Lasts n r x) (le : m ≤ n) :
    Lasts m r x := by
  obtain ⟨y, run, unfinished⟩ := h
  exact ⟨y, run.mono le, unfinished⟩

section Loop

variable {limit : Nat} {body : List Command}

theorem iteration_reaches (kind : FrameKind) (loop : kind.isLoop = true) {s : Store}
    (goes : (approxAll limit true body s).outcome = some .normal ∨
      (approxAll limit true body s).outcome = some .continued) (fs : List Frame) (σ : List Signal) :
    Fiber.Reaches 1 ⟨s, σ, ⟨kind, body, 0⟩ :: fs, false⟩
      ⟨(approxAll limit true body s).store, (approxAll limit true body s).trace.reverse ++ σ,
        close (⟨kind, body, 0⟩ :: fs), false⟩ := by
  have inside : inLoop (⟨kind, body, 0⟩ :: fs) = true := inLoop_loop loop
  rcases goes with ended | ended
  · exact (approxAll_runs limit true body s _ ended).reaches ⟨kind, body, 0⟩ fs σ inside rfl
  · have once := (approxAll_runs limit true body s _ ended).reaches ⟨kind, body, 0⟩ fs σ inside rfl
    rw [quit_continued loop] at once
    exact once

theorem iterate_given_up {run : Store → Result} {last : Option Outcome} {n : Nat} {s : Store}
    (h : (iterate run last (n + 1) s).outcome = none) :
    (run s).outcome = none ∧ iterate run last (n + 1) s = run s ∨
    ((run s).outcome = some .normal ∨ (run s).outcome = some .continued) ∧
      (iterate run last n (run s).store).outcome = none ∧
      iterate run last (n + 1) s = (iterate run last n (run s).store).behind (run s).trace := by
  simp only [iterate] at h ⊢
  split at h
  next ended => exact Or.inr ⟨Or.inl ended, h, rfl⟩
  next ended => exact Or.inr ⟨Or.inr ended, h, rfl⟩
  next => cases h
  next ended => rw [ended] at h; cases h
  next ended => exact Or.inl ⟨ended, rfl⟩

variable (inner : ∀ s, (approxAll limit true body s).outcome = none → ∀ f fs σ,
  inLoop (f :: fs) = true → f.commands.drop f.ip = body →
  Lasts limit (approxAll limit true body s) ⟨s, σ, f :: fs, false⟩)

include inner

theorem iterate_lasts_counted {n i m : Nat} {s : Store} (total : i + n = m)
    (h : (iterate (approxAll limit true body) (some .normal) n s).outcome = none)
    (fs : List Frame) (σ : List Signal) :
    Lasts limit (iterate (approxAll limit true body) (some .normal) n s)
      ⟨s, σ, ⟨.counted i m, body, 0⟩ :: fs, false⟩ := by
  induction n generalizing s i σ with
  | zero => cases h
  | succ n ih =>
    rcases iterate_given_up h with ⟨cut, same⟩ | ⟨goes, later, same⟩
    · rw [same]
      exact inner s cut ⟨.counted i m, body, 0⟩ fs σ rfl rfl
    · have more : i + 1 < m := by
        cases n with
        | zero => cases later
        | succ n => omega
      have once := iteration_reaches (.counted i m) rfl goes fs σ
      simp only [close, more, if_true] at once
      rw [same]
      exact (Lasts.after once (ih (by omega) later _)).mono (Nat.le_succ limit)

theorem iterate_lasts_forever {n : Nat} {s : Store} (short : n ≤ limit)
    (h : (iterate (approxAll limit true body) none n s).outcome = none)
    (fs : List Frame) (σ : List Signal) :
    Lasts n (iterate (approxAll limit true body) none n s)
      ⟨s, σ, ⟨.forever, body, 0⟩ :: fs, false⟩ := by
  induction n generalizing s σ with
  | zero => exact ⟨_, .refl _, by simp [Fiber.Final], rfl, rfl⟩
  | succ n ih =>
    rcases iterate_given_up h with ⟨cut, same⟩ | ⟨goes, later, same⟩
    · rw [same]
      exact (inner s cut ⟨.forever, body, 0⟩ fs σ rfl rfl).mono short
    · -- An iteration is a step at least, the one that closes the list.
      have once := iteration_reaches .forever rfl goes fs σ
      rw [same]
      exact Lasts.after once (ih (Nat.le_of_succ_le short) later _)

end Loop

mutual

theorem approx_lasts (limit : Nat) (b : Bool) (c : Command) (s : Store)
    (h : (approx limit b c s).outcome = none) (f : Frame) (fs : List Frame) (σ : List Signal)
    (inside : inLoop (f :: fs) = b) (cur : f.current? = some c) :
    Lasts limit (approx limit b c s) ⟨s, σ, f :: fs, false⟩ := by
  have first := Fiber.Reaches.command s σ fs cur
  cases c with
  | simple id i => cases h
  | repeatTimes id times body =>
    simp only [approx] at h ⊢
    have some : Engine.loopCount (times.evalNumber s) ≠ 0 := by
      intro zero
      rw [zero] at h
      cases h
    simp only [Fiber.begin, some, if_false] at first
    have rest := iterate_lasts_counted (approxAll_lasts limit true body) (Nat.zero_add _) h
      (f :: fs) ((shown id).reverse ++ σ)
    exact (Lasts.after first rest).mono (Nat.le_succ limit)
  | forever id body =>
    simp only [approx] at h ⊢
    have rest := iterate_lasts_forever (approxAll_lasts limit true body) (Nat.le_refl limit) h
      (f :: fs) ((shown id).reverse ++ σ)
    exact (Lasts.after first rest).mono (Nat.le_succ limit)
  | ifThen id cond body =>
    simp only [approx] at h ⊢
    by_cases holds : cond.evalCondition s = true
    · rw [if_pos holds] at h ⊢
      simp only [Fiber.begin, holds, if_true] at first
      have rest := approxAll_lasts limit b body s h ⟨.seq, body, 0⟩ (f :: fs)
        ((shown id).reverse ++ σ) ((inLoop_seq rfl).trans inside) rfl
      exact (Lasts.after first rest).mono (Nat.le_succ limit)
    · rw [if_neg holds] at h
      cases h
  | ifElse id cond yes no =>
    simp only [approx] at h ⊢
    by_cases holds : cond.evalCondition s = true
    · rw [if_pos holds] at h ⊢
      simp only [Fiber.begin, holds, if_true] at first
      have rest := approxAll_lasts limit b yes s h ⟨.seq, yes, 0⟩ (f :: fs)
        ((shown id).reverse ++ σ) ((inLoop_seq rfl).trans inside) rfl
      exact (Lasts.after first rest).mono (Nat.le_succ limit)
    · rw [if_neg holds] at h ⊢
      simp only [Fiber.begin, holds] at first
      have rest := approxAll_lasts limit b no s h ⟨.seq, no, 0⟩ (f :: fs)
        ((shown id).reverse ++ σ) ((inLoop_seq rfl).trans inside) rfl
      exact (Lasts.after first rest).mono (Nat.le_succ limit)

theorem approxAll_lasts (limit : Nat) (b : Bool) (cs : List Command) (s : Store)
    (h : (approxAll limit b cs s).outcome = none) (f : Frame) (fs : List Frame) (σ : List Signal)
    (inside : inLoop (f :: fs) = b) (rest : f.commands.drop f.ip = cs) :
    Lasts limit (approxAll limit b cs s) ⟨s, σ, f :: fs, false⟩ := by
  cases cs with
  | nil => cases h
  | cons c cs =>
    obtain ⟨cur, after⟩ := Fiber.current_of_drop_cons rest
    simp only [approxAll] at h ⊢
    by_cases passed : (approx limit b c s).outcome = some .normal
    · rw [if_pos passed] at h ⊢
      have head := (approx_runs limit b c s _ passed).reaches f fs σ inside cur
      have tail := approxAll_lasts limit b cs _ h f.advance fs
        ((approx limit b c s).trace.reverse ++ σ) inside after
      exact (Lasts.after head tail).mono (Nat.le_succ limit)
    · rw [if_neg passed] at h ⊢
      exact approx_lasts limit b c s h f fs σ inside cur

end

namespace Fiber

variable {commands : List Command} {s : Store}

theorem start_ends {o : Outcome} {s' : Store} {τ : List Signal}
    (h : RunsAll false commands s o s' τ) (σ : List Signal) :
    ∃ k, step^[k] (start commands s σ) = ⟨s', τ.reverse ++ σ, [], o.halts⟩ := by
  obtain ⟨k, _, run⟩ := h.reaches ⟨.seq, commands, 0⟩ [] σ rfl rfl
  have bare : quit o [⟨.seq, commands, 0⟩] = [] := by
    rw [quit_seq rfl]
    cases o <;> rfl
  rw [bare] at run
  exact ⟨k, run⟩

/-- A script without an outcome outlasts all its approximations. -/
theorem start_lasts (endless : ∀ o s' τ, ¬ RunsAll false commands s o s' τ) (limit : Nat)
    (σ : List Signal) :
    Lasts limit (approxAll limit false commands s) (start commands s σ) := by
  have givenUp : (approxAll limit false commands s).outcome = none := by
    cases ended : (approxAll limit false commands s).outcome with
    | none => rfl
    | some o => exact absurd (approxAll_runs limit false commands s o ended) (endless _ _ _)
  exact approxAll_lasts limit false commands s givenUp ⟨.seq, commands, 0⟩ [] σ rfl rfl

theorem start_unfinished (endless : ∀ o s' τ, ¬ RunsAll false commands s o s' τ) (k : Nat)
    (σ : List Signal) : ¬ (step^[k] (start commands s σ)).Final := by
  intro final
  obtain ⟨y, ⟨m, le, run⟩, unfinished⟩ := start_lasts endless k σ
  rw [iterate_of_final final le] at run
  exact unfinished.running (run ▸ final)

end Fiber

end BlockStage.Structured
