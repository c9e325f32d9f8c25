import BlockStage.Engine.Step

/-! # Structured control flow

The meaning of command lists without frames and without steps: a list is run from a store to its
outcome, the store behind it and the trace of what the observer is told, the oldest signal first. It
covers the commands that are done at once; what takes time or starts handlers is not sequential.
A loop without end has no derivation in `RunsAll`; its beginnings are given by `approxAll`.
-/
namespace BlockStage

/-- Instructions that are done at once and start nothing. -/
def Instruction.isSequential : Instruction → Bool
  | .move _ | .turn _ | .wait _ | .broadcast _ _ => false
  | _ => true

def Command.isSequential : Command → Bool
  | .simple _ i => i.isSequential
  | _ => true

namespace Structured

/-- How a command or a command list ends. -/
inductive Outcome where
  | normal
  | broken
  | continued
  /-- The script has ended, or all scripts have. -/
  | stopped (all : Bool)
  deriving Repr, DecidableEq

def shown (id : String) : List Signal := if id.isEmpty then [] else [.highlight (some id)]

/-- A variable is written; the empty name holds nothing. -/
def written (s : Store) (name : String) (x : Float) : Store :=
  if name.isEmpty then s else s.insert name x

/-- A sequential instruction: its outcome, the store behind it, and its log line. Instructions that
are not sequential have no meaning here. -/
def instruct (inLoop : Bool) (s : Store) : Instruction → Outcome × Store × List Signal
  | .setVar name value =>
    let x := value.evalNumber s
    (.normal, written s name x, [.log s!"set {name} = {Decimal.display x}"])
  | .changeVar name delta =>
    let d := delta.evalNumber s
    let x := s.read name + d
    (.normal, written s name x,
      [.log s!"change {name} by {Decimal.display d} -> {Decimal.display x}"])
  | .deleteVar name => (.normal, s.erase name, [.log s!"delete {name} (defaults to 0 when read)"])
  | .breakLoop =>
    if inLoop then (.broken, s, []) else (.normal, s, [.log "break: no loop to break."])
  | .continueLoop =>
    if inLoop then (.continued, s, []) else (.normal, s, [.log "continue: no loop to continue."])
  | .stopAll => (.stopped true, s, [.log "STOP ALL encountered."])
  | .stopThis => (.stopped false, s, [.log "STOP THIS SCRIPT encountered."])
  | .unsupported | .move _ | .turn _ | .wait _ | .broadcast _ _ => (.normal, s, [])

mutual

/-- A command is run inside of a loop or outside of loops. -/
inductive Runs : Bool → Command → Store → Outcome → Store → List Signal → Prop where
  | simple {b id i s o s' τ} (act : instruct b s i = (o, s', τ)) :
      Runs b (.simple id i) s o s' (shown id ++ τ)
  | repeatTimes {b id times body s o s' τ}
      (loop : Loops body (some (Engine.loopCount (times.evalNumber s))) s o s' τ) :
      Runs b (.repeatTimes id times body) s o s' (shown id ++ τ)
  | forever {b id body s o s' τ} (loop : Loops body none s o s' τ) :
      Runs b (.forever id body) s o s' (shown id ++ τ)
  | ifTrue {b id cond body s o s' τ} (holds : cond.evalCondition s = true)
      (run : RunsAll b body s o s' τ) : Runs b (.ifThen id cond body) s o s' (shown id ++ τ)
  | ifFalse {b id cond body s} (fails : cond.evalCondition s = false) :
      Runs b (.ifThen id cond body) s .normal s (shown id)
  | thenBranch {b id cond yes no s o s' τ} (holds : cond.evalCondition s = true)
      (run : RunsAll b yes s o s' τ) : Runs b (.ifElse id cond yes no) s o s' (shown id ++ τ)
  | elseBranch {b id cond yes no s o s' τ} (fails : cond.evalCondition s = false)
      (run : RunsAll b no s o s' τ) : Runs b (.ifElse id cond yes no) s o s' (shown id ++ τ)

/-- A command list is run up to its end, or up to the command that leaves it. -/
inductive RunsAll : Bool → List Command → Store → Outcome → Store → List Signal → Prop where
  | nil {b s} : RunsAll b [] s .normal s []
  | cons {b c cs s s₁ τ₁ o s₂ τ₂} (first : Runs b c s .normal s₁ τ₁)
      (rest : RunsAll b cs s₁ o s₂ τ₂) : RunsAll b (c :: cs) s o s₂ (τ₁ ++ τ₂)
  | exit {b c cs s o s' τ} (first : Runs b c s o s' τ) (left : o ≠ .normal) :
      RunsAll b (c :: cs) s o s' τ

/-- A loop with so many iterations left; `none` is without end. -/
inductive Loops : List Command → Option Nat → Store → Outcome → Store → List Signal → Prop where
  | done {body s} : Loops body (some 0) s .normal s []
  | again {body n n' s o s₁ τ₁ o' s₂ τ₂} (left : n = n'.map (· + 1))
      (iteration : RunsAll true body s o s₁ τ₁) (goes : o = .normal ∨ o = .continued)
      (rest : Loops body n' s₁ o' s₂ τ₂) : Loops body n s o' s₂ (τ₁ ++ τ₂)
  | broke {body n s s' τ} (left : n ≠ some 0) (iteration : RunsAll true body s .broken s' τ) :
      Loops body n s .normal s' τ
  | stopped {body n s all s' τ} (left : n ≠ some 0)
      (iteration : RunsAll true body s (.stopped all) s' τ) : Loops body n s (.stopped all) s' τ

end

/-- A loop over nothing that has no last iteration has no outcome. -/
theorem Loops.of_empty {body : List Command} {n : Option Nat} {s s' : Store} {o : Outcome}
    {τ : List Signal} (h : Loops body n s o s' τ) (empty : body = []) (endless : n = none) :
    False := by
  match h with
  | .done => cases endless
  | .again left _ _ rest =>
    refine rest.of_empty empty ?_
    rwa [endless, eq_comm, Option.map_eq_none_iff] at left
  | .broke _ iteration => subst empty; cases iteration
  | .stopped _ iteration => subst empty; cases iteration

/-- What a run that may be given up has come to; it has no outcome if it was. -/
structure Result where
  outcome : Option Outcome
  store : Store
  trace : List Signal

def Result.behind (r : Result) (τ : List Signal) : Result := { r with trace := τ ++ r.trace }

/-- A loop over a body: `last` is its outcome when so many iterations have been made. -/
def iterate (body : Store → Result) (last : Option Outcome) : Nat → Store → Result
  | 0, s => ⟨last, s, []⟩
  | n + 1, s =>
    let r := body s
    match r.outcome with
    | some .normal | some .continued => (iterate body last n r.store).behind r.trace
    | some .broken => { r with outcome := some .normal }
    | some (.stopped _) | none => r

mutual

/-- The run of a command in which a loop without end is given up after `limit` iterations. -/
def approx (limit : Nat) : Bool → Command → Store → Result
  | b, .simple id i, s =>
    match instruct b s i with
    | (o, s', τ) => ⟨some o, s', shown id ++ τ⟩
  | _, .repeatTimes id times body, s =>
    (iterate (approxAll limit true body) (some .normal) (Engine.loopCount (times.evalNumber s))
      s).behind (shown id)
  | _, .forever id body, s =>
    (iterate (approxAll limit true body) none limit s).behind (shown id)
  | b, .ifThen id cond body, s =>
    if cond.evalCondition s then (approxAll limit b body s).behind (shown id)
    else ⟨some .normal, s, shown id⟩
  | b, .ifElse id cond yes no, s =>
    (if cond.evalCondition s then approxAll limit b yes s else approxAll limit b no s).behind
      (shown id)

def approxAll (limit : Nat) : Bool → List Command → Store → Result
  | _, [], s => ⟨some .normal, s, []⟩
  | b, c :: cs, s =>
    let r := approx limit b c s
    if r.outcome = some .normal then (approxAll limit b cs r.store).behind r.trace else r

end

section Finished

variable {body : List Command} {run : Store → Result}
  (hbody : ∀ s o, (run s).outcome = some o → RunsAll true body s o (run s).store (run s).trace)

include hbody

theorem iterate_loops {last : Option Outcome} (count : Nat → Option Nat)
    (next : ∀ n, count (n + 1) = (count n).map (· + 1))
    (final : ∀ s o, last = some o → Loops body (count 0) s o s [])
    {n : Nat} {s : Store} {o : Outcome} (h : (iterate run last n s).outcome = some o) :
    Loops body (count n) s o (iterate run last n s).store (iterate run last n s).trace := by
  induction n generalizing s with
  | zero => exact final s o h
  | succ n ih =>
    have left : count (n + 1) ≠ some 0 := by
      rw [next]
      cases count n <;> simp
    have iteration := hbody s
    simp only [iterate] at h ⊢
    split at h
    next ended =>
      exact .again (next n) (iteration _ ended) (Or.inl rfl) (ih h)
    next ended =>
      exact .again (next n) (iteration _ ended) (Or.inr rfl) (ih h)
    next ended =>
      obtain rfl := Option.some.inj h
      exact .broke left (iteration _ ended)
    next all ended =>
      obtain rfl := Option.some.inj (ended.symm.trans h)
      exact .stopped left (iteration _ ended)
    next ended => rw [ended] at h; cases h

theorem iterate_counted {n : Nat} {s : Store} {o : Outcome}
    (h : (iterate run (some .normal) n s).outcome = some o) :
    Loops body (some n) s o (iterate run (some .normal) n s).store
      (iterate run (some .normal) n s).trace := by
  refine iterate_loops hbody some (fun _ => rfl) (fun s o ho => ?_) h
  obtain rfl := Option.some.inj ho
  exact .done

theorem iterate_endless {n : Nat} {s : Store} {o : Outcome}
    (h : (iterate run none n s).outcome = some o) :
    Loops body none s o (iterate run none n s).store (iterate run none n s).trace :=
  iterate_loops hbody (fun _ => none) (fun _ => rfl) (fun _ _ ho => by cases ho) h

end Finished

mutual

theorem approx_runs (limit : Nat) (b : Bool) (c : Command) (s : Store) (o : Outcome)
    (h : (approx limit b c s).outcome = some o) :
    Runs b c s o (approx limit b c s).store (approx limit b c s).trace := by
  cases c with
  | simple id i =>
    simp only [approx] at h ⊢
    obtain rfl := Option.some.inj h
    exact .simple rfl
  | repeatTimes id times body =>
    exact .repeatTimes (iterate_counted (approxAll_runs limit true body) h)
  | forever id body => exact .forever (iterate_endless (approxAll_runs limit true body) h)
  | ifThen id cond body =>
    simp only [approx] at h ⊢
    by_cases holds : cond.evalCondition s = true
    · rw [if_pos holds] at h ⊢
      exact .ifTrue holds (approxAll_runs limit b body s o h)
    · rw [if_neg holds] at h ⊢
      obtain rfl := Option.some.inj h
      exact .ifFalse (by simpa using holds)
  | ifElse id cond yes no =>
    simp only [approx] at h ⊢
    by_cases holds : cond.evalCondition s = true
    · rw [if_pos holds] at h ⊢
      exact .thenBranch holds (approxAll_runs limit b yes s o h)
    · rw [if_neg holds] at h ⊢
      exact .elseBranch (by simpa using holds) (approxAll_runs limit b no s o h)

theorem approxAll_runs (limit : Nat) (b : Bool) (cs : List Command) (s : Store) (o : Outcome)
    (h : (approxAll limit b cs s).outcome = some o) :
    RunsAll b cs s o (approxAll limit b cs s).store (approxAll limit b cs s).trace := by
  cases cs with
  | nil =>
    obtain rfl := Option.some.inj h
    exact .nil
  | cons c cs =>
    have first := approx_runs limit b c s
    simp only [approxAll] at h ⊢
    by_cases passed : (approx limit b c s).outcome = some .normal
    · rw [if_pos passed] at h ⊢
      exact .cons (first _ passed) (approxAll_runs limit b cs _ o h)
    · rw [if_neg passed] at h ⊢
      exact .exit (first o h) (fun same => passed (h.trans (congrArg some same)))

end

end Structured

end BlockStage
