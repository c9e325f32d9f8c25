import BlockStage.Proofs.Run

/-! # Runs side by side

Two engines to which the same is done take the same turns as long as the scheduler sees the same in
both: limits, counters, and which threads there are and are due. A relation that grants this and
that the moves of a tick keep is kept by whole ticks, and the ticks have the same outcome. The
relation may speak of the steps taken so far. With one engine on both sides it is an invariant of
its runs.
-/
namespace BlockStage

/-- What the scheduler asks of a thread. -/
def Thread.standing (t : Thread) : Bool × Nat := (t.finished, t.bornTick)

namespace Engine

/-- The scheduler sees the same in both engines. -/
structure SameView (e e' : Engine) : Prop where
  limits : e'.limits = e.limits
  running : e'.running = e.running
  pending : e'.pending = e.pending
  tickCount : e'.tickCount = e.tickCount
  lastTick : e'.lastTick = e.lastTick
  opsThisSecond : e'.opsThisSecond = e.opsThisSecond
  threads : e'.threads.map Thread.standing = e.threads.map Thread.standing

namespace SameView

variable {e e' : Engine} {i : Nat}

theorem refl (e : Engine) : e.SameView e := ⟨rfl, rfl, rfl, rfl, rfl, rfl, rfl⟩

theorem length (view : e.SameView e') : e'.threads.length = e.threads.length := by
  simpa using congrArg List.length view.threads

theorem thread_none (view : e.SameView e') (listed : e.threads[i]? = none) :
    e'.threads[i]? = none := by
  rw [List.getElem?_eq_none_iff] at listed ⊢
  rw [view.length]
  exact listed

theorem thread_some {t : Thread} (view : e.SameView e') (listed : e.threads[i]? = some t) :
    ∃ t', e'.threads[i]? = some t' ∧ t'.finished = t.finished ∧ t'.bornTick = t.bornTick := by
  have same : (e'.threads.map Thread.standing)[i]? = (e.threads.map Thread.standing)[i]? := by
    rw [view.threads]
  rw [List.getElem?_map, List.getElem?_map, listed, Option.map_some,
    Option.map_eq_some_iff] at same
  obtain ⟨t', listed', standing⟩ := same
  exact ⟨t', listed', congrArg Prod.fst standing, congrArg Prod.snd standing⟩

theorem delta (view : e.SameView e') (now : Nat) : e'.delta now = e.delta now := by
  rw [Engine.delta, view.lastTick, view.limits, Engine.delta]

end SameView

/-- A relation between two engines, with the steps that the first one has taken, that every move of
a tick keeps. -/
structure Lockstep (R : List Visit → Engine → Engine → Prop) : Prop where
  view : ∀ {h e e'}, R h e e' → e.SameView e'
  begins : ∀ {h e e'} (now : Nat), R h e e' → R h (e.beginTick now) (e'.beginTick now)
  prunes : ∀ {h e e'}, R h e e' →
    R h { e with threads := e.liveThreads } { e' with threads := e'.liveThreads }
  counts : ∀ {h e e'}, R h e e' → R h { e with opsThisSecond := e.opsThisSecond + 1 }
    { e' with opsThisSecond := e'.opsThisSecond + 1 }
  requests : ∀ {h e e'}, R h e e' → R h { e with pending := true } { e' with pending := true }
  ends : ∀ {h e e'} (line : String), R h e e' → R h (e.report line).stop (e'.report line).stop
  steps : ∀ {h e'} (v : Visit) (t' : Thread), v.Due → R h v.engine e' →
    e'.threads[v.position]? = some t' → (e'.stepThread t' v.dt).2.2 = v.progress ∧
      R (h ++ [v]) v.after (e'.stepAt v.position t' v.dt)

end Engine

namespace Pass

open Engine (Lockstep)

theorem visit_eq (dt : Float) (i : Nat) (t : Thread) (p : Pass) :
    p.visit dt i t = { p with
      engine := p.engine.stepAt i t dt
      progressed := p.progressed || (p.engine.stepThread t dt).2.2
      ended := p.ended || !(p.engine.stepAt i t dt).running
      visits := ⟨p.engine, i, t, dt, (p.engine.stepThread t dt).2.2⟩ :: p.visits } := by
  unfold visit Engine.stepAt
  generalize p.engine.stepThread t dt = done
  obtain ⟨e, t', progress⟩ := done
  cases runs : e.running <;> simp [runs]

structure Beside (R : List Visit → Engine → Engine → Prop) (h : List Visit) (p p' : Pass) :
    Prop where
  engines : R (h ++ p.visits.reverse) p.engine p'.engine
  left : p'.left = p.left
  progressed : p'.progressed = p.progressed
  ended : p'.ended = p.ended
  running : p.ended = false → p.engine.running = true

variable {R : List Visit → Engine → Engine → Prop} {h : List Visit} {p p' : Pass} {dt : Float}
  {i : Nat}

theorem count_beside (lockstep : Lockstep R) (beside : Beside R h p p') :
    Beside R h p.count p'.count where
  engines := lockstep.counts beside.engines
  left := congrArg (· - 1) beside.left
  progressed := beside.progressed
  ended := beside.ended
  running := beside.running

theorem visit_beside (lockstep : Lockstep R) {t t' : Thread} (beside : Beside R h p p')
    (going : p.ended = false) (listed : p.engine.threads[i]? = some t)
    (listed' : p'.engine.threads[i]? = some t') (unfinished : t.finished = false)
    (older : t.bornTick < p.engine.tickCount) :
    Beside R h (p.visit dt i t) (p'.visit dt i t') := by
  let v : Visit := ⟨p.engine, i, t, dt, (p.engine.stepThread t dt).2.2⟩
  have due : v.Due := ⟨beside.running going, listed, unfinished, older, rfl⟩
  obtain ⟨progress, after⟩ := lockstep.steps v t' due beside.engines listed'
  have running : (p'.engine.stepAt i t' dt).running = (p.engine.stepAt i t dt).running :=
    (lockstep.view after).running
  rw [visit_eq, visit_eq]
  constructor
  · simpa [v, Visit.after] using after
  · exact beside.left
  · simpa [beside.progressed] using congrArg (p.progressed || ·) progress
  · dsimp only
    rw [beside.ended, running]
  · intro open'
    simpa [going] using open'

theorem turn_beside (lockstep : Lockstep R) (beside : Beside R h p p') :
    Beside R h (p.turn dt i) (p'.turn dt i) := by
  have view := lockstep.view beside.engines
  unfold turn
  rw [beside.ended]
  cases going : p.ended with
  | true => simpa [going] using beside
  | false =>
    rw [if_neg (by simp), if_neg (by simp)]
    cases listed : p.engine.threads[i]? with
    | none =>
      rw [view.thread_none listed]
      exact beside
    | some t =>
      obtain ⟨t', listed', finished, born⟩ := view.thread_some listed
      rw [listed']
      dsimp only
      rw [finished, born, view.tickCount, beside.left]
      split
      · exact beside
      next eligible =>
        simp only [Bool.or_eq_true, decide_eq_true_eq, not_or, Bool.not_eq_true,
          Nat.not_le] at eligible
        split
        next spent =>
          exact ⟨beside.engines, rfl, beside.progressed, rfl, by simp⟩
        · have counted := count_beside lockstep beside
          have view' := lockstep.view counted.engines
          rw [view'.limits, view'.opsThisSecond]
          split
          · exact ⟨lockstep.ends _ counted.engines, counted.left, counted.progressed, rfl, by simp⟩
          · exact visit_beside lockstep counted going listed listed' eligible.1 eligible.2

theorem round_beside (lockstep : Lockstep R) (beside : Beside R h p p') :
    Beside R h (p.round dt) (p'.round dt) := by
  have fold : ∀ (positions : List Nat) (q q' : Pass), Beside R h q q' →
      Beside R h (positions.foldl (turn dt) q) (positions.foldl (turn dt) q') := by
    intro positions
    induction positions with
    | nil => intro q q' beside; exact beside
    | cons i positions ih => intro q q' beside; exact ih _ _ (turn_beside lockstep beside)
  unfold round
  rw [(lockstep.view beside.engines).length]
  exact fold _ _ _ ⟨beside.engines, beside.left, rfl, beside.ended, beside.running⟩

theorem rounds_beside (lockstep : Lockstep R) {fuel : Nat} (beside : Beside R h p p') :
    Beside R h (rounds dt fuel p) (rounds dt fuel p') := by
  induction fuel generalizing p p' with
  | zero => exact beside
  | succ fuel ih =>
    have still : (p'.ended || !p'.engine.running || decide (p'.left = 0)) =
        (p.ended || !p.engine.running || decide (p.left = 0)) := by
      rw [beside.ended, (lockstep.view beside.engines).running, beside.left]
    unfold rounds
    rw [still]
    split
    · exact beside
    · have pruned := lockstep.prunes beside.engines
      have length := (lockstep.view pruned).length
      have none : (p'.engine.liveThreads).isEmpty = (p.engine.liveThreads).isEmpty := by
        rw [Bool.eq_iff_iff, List.isEmpty_iff_length_eq_zero, List.isEmpty_iff_length_eq_zero]
        rw [length]
      dsimp only
      rw [none]
      split
      · exact ⟨lockstep.ends _ pruned, beside.left, beside.progressed, rfl, by simp⟩
      · have next : Beside R h
            (round dt { p with engine := { p.engine with threads := p.engine.liveThreads } })
            (round dt { p' with engine := { p'.engine with threads := p'.engine.liveThreads } }) :=
          round_beside lockstep
            ⟨pruned, beside.left, beside.progressed, beside.ended, beside.running⟩
        dsimp only at next
        rw [next.progressed]
        split
        · exact ih next
        · exact next

end Pass

namespace Engine

variable {R : List Visit → Engine → Engine → Prop} {h : List Visit} {e e' : Engine}

theorem tick_beside (lockstep : Lockstep R) (related : R h e e') (now : Nat) :
    R (h ++ e.visits (.tick now)) (e.tick now).1 (e'.tick now).1 ∧
      (e'.tick now).2 = (e.tick now).2 := by
  have view := lockstep.view related
  by_cases runs : (e.running && e.pending) = true
  · have runs' : (e'.running && e'.pending) = true := by rw [view.running, view.pending, runs]
    have begun : Pass.Beside R h { engine := e.beginTick now, left := e.limits.maxStepsPerTick }
        { engine := e'.beginTick now, left := e.limits.maxStepsPerTick } := by
      refine ⟨by simpa using lockstep.begins now related, rfl, rfl, rfl, fun _ => ?_⟩
      rw [Bool.and_eq_true] at runs
      simpa using runs.1
    have done : Pass.Beside R h (e.tickPass now) (e'.tickPass now) := by
      unfold tickPass
      rw [view.delta, view.limits]
      exact Pass.rounds_beside lockstep begun
    have running := (lockstep.view done.engines).running
    simp only [tick, visits, if_pos runs, if_pos runs']
    by_cases going : (e.tickPass now).engine.running = true
    · rw [if_pos going, if_pos (running.trans going)]
      exact ⟨lockstep.requests done.engines, rfl⟩
    · rw [if_neg going, if_neg (running ▸ going)]
      exact ⟨done.engines, rfl⟩
  · have runs' : ¬ (e'.running && e'.pending) = true := by rwa [view.running, view.pending]
    simpa only [tick, visits, if_neg runs, if_neg runs', List.append_nil, and_true] using related

def outcomes (e : Engine) : List Operation → List TickOutcome
  | [] => []
  | .tick now :: ops => (e.tick now).2 :: (e.perform (.tick now)).outcomes ops
  | op :: ops => (e.perform op).outcomes ops

/-- A relation that is kept in lockstep, and by those operations besides ticks that are used, is
kept by all of them. -/
theorem performAll_beside (lockstep : Lockstep R) {ops : List Operation}
    (others : ∀ {h e e'} op, op ∈ ops → (∀ now, op ≠ .tick now) → R h e e' →
      R h (e.perform op) (e'.perform op)) (related : R h e e') :
    R (h ++ e.history ops) (e.performAll ops) (e'.performAll ops) ∧
      e'.outcomes ops = e.outcomes ops := by
  induction ops generalizing h e e' with
  | nil => exact ⟨by simpa [history, performAll] using related, rfl⟩
  | cons op ops ih =>
    have later : ∀ {h e e'} op, op ∈ ops → (∀ now, op ≠ .tick now) → R h e e' →
        R h (e.perform op) (e'.perform op) :=
      fun op mem => others op (List.mem_cons_of_mem _ mem)
    have step : R (h ++ e.visits op) (e.perform op) (e'.perform op) := by
      by_cases ticks : ∃ now, op = .tick now
      · obtain ⟨now, rfl⟩ := ticks
        exact (tick_beside lockstep related now).1
      · have quiet : e.visits op = [] := by
          cases op with
          | tick now => exact absurd ⟨now, rfl⟩ ticks
          | _ => rfl
        rw [quiet, List.append_nil]
        exact others op List.mem_cons_self (fun now same => ticks ⟨now, same⟩) related
    obtain ⟨rest, outcomes⟩ := ih later step
    refine ⟨by simpa [history, performAll] using rest, ?_⟩
    cases op with
    | tick now =>
      have first := (tick_beside lockstep related now).2
      simp only [Engine.outcomes]
      rw [first, outcomes]
    | _ => exact outcomes

/-- The relation holds now, and it held before every step that was taken. -/
def Along (R : List Visit → Engine → Engine → Prop) (h : List Visit) (e e' : Engine) : Prop :=
  R h e e' ∧ ∀ before v after, h = before ++ v :: after → ∃ e', R before v.engine e'

theorem Lockstep.along (lockstep : Lockstep R) : Lockstep (Along R) where
  view related := lockstep.view related.1
  begins now related := ⟨lockstep.begins now related.1, related.2⟩
  prunes related := ⟨lockstep.prunes related.1, related.2⟩
  counts related := ⟨lockstep.counts related.1, related.2⟩
  requests related := ⟨lockstep.requests related.1, related.2⟩
  ends line related := ⟨lockstep.ends line related.1, related.2⟩
  steps := by
    rintro h e' v t' due ⟨related, earlier⟩ listed
    obtain ⟨progress, stepped⟩ := lockstep.steps v t' due related listed
    refine ⟨progress, stepped, fun before w after split => ?_⟩
    rcases List.eq_nil_or_concat after with rfl | ⟨rest, u, rfl⟩
    · obtain ⟨rfl, last⟩ := List.append_inj' split rfl
      obtain rfl := (List.cons.inj last).1
      exact ⟨e', related⟩
    · rw [List.concat_eq_append, ← List.cons_append, ← List.append_assoc] at split
      exact earlier before w rest (List.append_inj' split rfl).1

/-- What is kept in lockstep from an engine on holds behind the operations and before each of their
steps. -/
theorem performAll_along (lockstep : Lockstep R) {ops : List Operation}
    (others : ∀ {h e e'} op, op ∈ ops → (∀ now, op ≠ .tick now) → R h e e' →
      R h (e.perform op) (e'.perform op)) (related : R [] e e') :
    Along R (e.history ops) (e.performAll ops) (e'.performAll ops) := by
  have first : Along R [] e e' := ⟨related, by simp⟩
  have rest := performAll_beside lockstep.along
    (fun op mem notTick along => ⟨others op mem notTick along.1, along.2⟩) first
  simpa using rest.1

end Engine

end BlockStage
