import BlockStage.Engine.Tick
import BlockStage.Proofs.Step

/-! # Runs

A run is a sequence of operations on a fresh engine. `Engine.history` lists the steps that it takes.
`Reached` closes the fresh engine under the single moves that operations are made of, those inside
of a tick included; it allows more orders of moves than the scheduler has, so what holds of all that
is reached holds in every run, between operations and before every step.
-/
namespace BlockStage

namespace Engine

/-- The steps that an operation takes, the oldest first. -/
def visits (e : Engine) : Operation → List Visit
  | .tick now => if e.running && e.pending then (e.tickPass now).visits.reverse else []
  | _ => []

def performAll (e : Engine) (ops : List Operation) : Engine := ops.foldl perform e

def history (e : Engine) : List Operation → List Visit
  | [] => []
  | op :: ops => e.visits op ++ (e.perform op).history ops

def ticks (e : Engine) (times : Nat → Nat) : Nat → Engine
  | 0 => e
  | n + 1 => ((e.ticks times n).tick (times n)).1

def stepAt (e : Engine) (i : Nat) (t : Thread) (dt : Float) : Engine :=
  match e.stepThread t dt with
  | (e', t', _) => if e'.running then { e' with threads := e'.threads.set i t' } else e'

theorem beginTick_eq (e : Engine) (now : Nat) :
    ∃ window ops, e.beginTick now = { e with
      pending := false, tickCount := e.tickCount + 1, lastTick := now
      windowStart := window, opsThisSecond := ops } := by
  unfold beginTick
  dsimp only
  split
  · exact ⟨_, _, rfl⟩
  · exact ⟨_, _, rfl⟩

@[simp] theorem beginTick_program (e : Engine) (now : Nat) :
    (e.beginTick now).program = e.program := by
  obtain ⟨_, _, h⟩ := e.beginTick_eq now
  rw [h]

@[simp] theorem beginTick_threads (e : Engine) (now : Nat) :
    (e.beginTick now).threads = e.threads := by
  obtain ⟨_, _, h⟩ := e.beginTick_eq now
  rw [h]

@[simp] theorem beginTick_nextThreadId (e : Engine) (now : Nat) :
    (e.beginTick now).nextThreadId = e.nextThreadId := by
  obtain ⟨_, _, h⟩ := e.beginTick_eq now
  rw [h]

@[simp] theorem beginTick_tickCount (e : Engine) (now : Nat) :
    (e.beginTick now).tickCount = e.tickCount + 1 := by
  obtain ⟨_, _, h⟩ := e.beginTick_eq now
  rw [h]

@[simp] theorem beginTick_running (e : Engine) (now : Nat) :
    (e.beginTick now).running = e.running := by
  obtain ⟨_, _, h⟩ := e.beginTick_eq now
  rw [h]

@[simp] theorem start_program (e : Engine) (now : Nat) : (e.start now).program = e.program := by
  unfold start
  split
  · split <;> simp [spawn, report, *]
  · rfl

@[simp] theorem start_tickCount (e : Engine) (now : Nat) :
    (e.start now).tickCount = e.tickCount := by
  unfold start
  split
  · split <;> rfl
  · rfl

/-- A start leaves the threads alone, or it puts new ones for the scripts in their place. -/
theorem start_cases (e : Engine) (now : Nat) :
    ((e.start now).threads = e.threads ∧ (e.start now).nextThreadId = e.nextThreadId) ∨
    ∃ p, e.program = some p ∧
      (e.start now).threads = startThreads e.tickCount e.nextThreadId p.scripts ∧
      (e.start now).nextThreadId = e.nextThreadId + p.scripts.length := by
  unfold start
  split
  next p _ hp _ =>
    split
    · exact Or.inl ⟨rfl, rfl⟩
    · exact Or.inr ⟨p, hp, rfl, rfl⟩
  · exact Or.inl ⟨rfl, rfl⟩

theorem ticks_of_stopped {e : Engine} {times : Nat → Nat} {m n : Nat}
    (stopped : (e.ticks times n).running = false) (le : n ≤ m) :
    e.ticks times m = e.ticks times n := by
  induction le with
  | refl => rfl
  | step _ ih => simp [ticks, ih, tick, stopped]

end Engine

namespace Visit

/-- The engine behind the step, as the next move finds it. -/
def after (v : Visit) : Engine := v.engine.stepAt v.position v.thread v.dt

def stepped (v : Visit) : Thread := (v.engine.stepThread v.thread v.dt).2.1

/-- What the scheduler has checked before it takes a step. -/
structure Due (v : Visit) : Prop where
  running : v.engine.running = true
  listed : v.engine.threads[v.position]? = some v.thread
  unfinished : v.thread.finished = false
  older : v.thread.bornTick < v.engine.tickCount
  progress : v.progress = (v.engine.stepThread v.thread v.dt).2.2

theorem Due.mem {v : Visit} (h : v.Due) : v.thread ∈ v.engine.threads :=
  List.mem_of_getElem? h.listed

theorem effect (v : Visit) : Engine.Effect v.engine v.thread v.dt
    (v.engine.stepThread v.thread v.dt).1 v.stepped (v.engine.stepThread v.thread v.dt).2.2 :=
  Engine.stepThread_effect v.engine v.thread v.dt

/-- What a step does to the list of threads: it puts its own thread back and appends the handlers of
a broadcast, or it ends the run. -/
inductive Outcome (v : Visit) : Prop where
  | halted (threads : v.after.threads = []) (nextThreadId :
      v.after.nextThreadId = v.engine.nextThreadId)
  | kept (scripts : List Script) (broadcast : scripts = [] ∨ ∃ m, scripts = v.engine.called m)
      (threads : v.after.threads = v.engine.threads.set v.position v.stepped ++
        Engine.startThreads v.engine.tickCount v.engine.nextThreadId scripts)
      (nextThreadId : v.after.nextThreadId = v.engine.nextThreadId + scripts.length)

theorem Due.after_spawn {v : Visit} (due : v.Due) {e₀ : Engine} {scripts : List Script}
    (quiet : v.engine.Quiet e₀)
    (stepped : (v.engine.stepThread v.thread v.dt).1 = e₀.spawn scripts) :
    v.after.threads = v.engine.threads.set v.position v.stepped ++
      Engine.startThreads v.engine.tickCount v.engine.nextThreadId scripts ∧
    v.after.nextThreadId = v.engine.nextThreadId + scripts.length ∧
    v.after.program = v.engine.program ∧ v.after.tickCount = v.engine.tickCount := by
  have inside : v.position < v.engine.threads.length :=
    (List.getElem?_eq_some_iff.mp due.listed).1
  have runs : (e₀.spawn scripts).running = true := quiet.running.trans due.running
  have after : v.after = { e₀.spawn scripts with
      threads := (e₀.spawn scripts).threads.set v.position v.stepped } := by
    simp [after, Engine.stepAt, stepped, runs, Visit.stepped]
  rw [after]
  simp only [Engine.spawn, quiet.threads, quiet.tickCount, quiet.nextThreadId, quiet.program,
    and_self, and_true]
  exact List.set_append_left _ _ inside

theorem Due.after_cases {v : Visit} (due : v.Due) :
    v.after.program = v.engine.program ∧ v.after.tickCount = v.engine.tickCount ∧ v.Outcome := by
  rcases v.effect.engine with ⟨e₀, quiet, he⟩ | ⟨e₀, scripts, quiet, broadcast, he⟩
  · have after : v.after = e₀.stop := by
      simp [after, Engine.stepAt, he, Engine.stop, Engine.highlight]
    rw [after]
    exact ⟨quiet.program, quiet.tickCount, .halted (by rw [after]; rfl)
      (by rw [after]; exact quiet.nextThreadId)⟩
  · obtain ⟨threads, next, program, tickCount⟩ := due.after_spawn quiet he
    exact ⟨program, tickCount, .kept scripts broadcast threads next⟩

end Visit

/-- What runs under the given limits, with programs of a given kind, can come to from any variables:
the steps taken so far and the engine behind them. -/
inductive Reached (l : Limits) (Loads : Program → Prop) : List Visit → Engine → Prop where
  | fresh (s : Store) : Reached l Loads [] { limits := l, store := s }
  | load {h e} (p : Program) (hp : Loads p) : Reached l Loads h e → Reached l Loads h (e.load p)
  | bind {h e} (s : Sprite) : Reached l Loads h e → Reached l Loads h (e.bind s)
  | start {h e} (now : Nat) : Reached l Loads h e → Reached l Loads h (e.start now)
  | stop {h e} : Reached l Loads h e → Reached l Loads h e.stop
  | report {h e} (line : String) : Reached l Loads h e → Reached l Loads h (e.report line)
  | request {h e} : Reached l Loads h e → Reached l Loads h { e with pending := true }
  | beginTick {h e} (now : Nat) : Reached l Loads h e → Reached l Loads h (e.beginTick now)
  | prune {h e} : Reached l Loads h e → Reached l Loads h { e with threads := e.liveThreads }
  | count {h e} : Reached l Loads h e →
      Reached l Loads h { e with opsThisSecond := e.opsThisSecond + 1 }
  | step {h} (v : Visit) (due : v.Due) : Reached l Loads h v.engine →
      Reached l Loads (h ++ [v]) v.after

namespace Reached

variable {l : Limits} {Loads : Program → Prop} {h : List Visit} {e : Engine}

theorem earlier (r : Reached l Loads h e) {before after : List Visit} {v : Visit}
    (hv : h = before ++ v :: after) : Reached l Loads before v.engine ∧ v.Due := by
  induction r generalizing after with
  | fresh => simp at hv
  | load _ _ _ ih => exact ih hv
  | bind _ _ ih => exact ih hv
  | start _ _ ih => exact ih hv
  | stop _ ih => exact ih hv
  | report _ _ ih => exact ih hv
  | request _ ih => exact ih hv
  | beginTick _ _ ih => exact ih hv
  | prune _ ih => exact ih hv
  | count _ ih => exact ih hv
  | step w due r ih =>
    rcases List.eq_nil_or_concat after with rfl | ⟨rest, u, rfl⟩
    · obtain ⟨rfl, hw⟩ := List.append_inj' hv rfl
      obtain rfl := (List.cons.inj hw).1
      exact ⟨r, due⟩
    · rw [List.concat_eq_append, ← List.cons_append, ← List.append_assoc] at hv
      exact ih (List.append_inj' hv rfl).1

end Reached

namespace Pass

variable {l : Limits} {Loads : Program → Prop} {h : List Visit}

/-- The engine of a pass is reached, and it runs for as long as the tick does. -/
structure Sound (l : Limits) (Loads : Program → Prop) (h : List Visit) (p : Pass) : Prop where
  reached : Reached l Loads (h ++ p.visits.reverse) p.engine
  running : p.ended = false → p.engine.running = true

theorem visit_sound {dt : Float} {i : Nat} {t : Thread} {p : Pass} (hp : p.Sound l Loads h)
    (open' : p.ended = false) (listed : p.engine.threads[i]? = some t)
    (unfinished : t.finished = false) (older : t.bornTick < p.engine.tickCount) :
    (p.visit dt i t).Sound l Loads h := by
  let v : Visit := ⟨p.engine, i, t, dt, (p.engine.stepThread t dt).2.2⟩
  have due : v.Due := ⟨hp.running open', listed, unfinished, older, rfl⟩
  have reached := Reached.step v due hp.reached
  have visits : (p.visit dt i t).visits = v :: p.visits := by
    unfold visit
    split
    split <;> simp_all [v]
  have engine : (p.visit dt i t).engine = v.after := by
    unfold visit Visit.after Engine.stepAt
    split
    split <;> simp_all [v]
  constructor
  · rw [visits, engine, List.reverse_cons, ← List.append_assoc]
    exact reached
  · unfold visit
    split
    split
    · intro _; assumption
    · intro ended; simp at ended

theorem turn_sound {dt : Float} {i : Nat} {p : Pass} (hp : p.Sound l Loads h) :
    (p.turn dt i).Sound l Loads h := by
  unfold turn
  split
  · exact hp
  next open' =>
    split
    · exact hp
    next t listed =>
      split
      · exact hp
      next eligible =>
        simp only [Bool.or_eq_true, decide_eq_true_eq, not_or, Bool.not_eq_true,
          Nat.not_le] at eligible
        split
        · exact ⟨hp.reached, by simp⟩
        · have counted : p.count.Sound l Loads h := ⟨hp.reached.count, hp.running⟩
          dsimp only
          split
          · exact ⟨(counted.reached.report _).stop, by simp⟩
          · exact visit_sound counted (by simpa [count] using open') listed eligible.1 eligible.2

theorem round_sound {dt : Float} {p : Pass} (hp : p.Sound l Loads h) :
    (p.round dt).Sound l Loads h := by
  have fold : ∀ (positions : List Nat) (q : Pass), q.Sound l Loads h →
      (positions.foldl (turn dt) q).Sound l Loads h := by
    intro positions
    induction positions with
    | nil => intro q hq; exact hq
    | cons i positions ih => intro q hq; exact ih _ (turn_sound hq)
  exact fold _ _ ⟨hp.reached, hp.running⟩

theorem rounds_sound {dt : Float} {fuel : Nat} {p : Pass} (hp : p.Sound l Loads h) :
    (rounds dt fuel p).Sound l Loads h := by
  induction fuel generalizing p with
  | zero => exact hp
  | succ fuel ih =>
    unfold rounds
    dsimp only
    split
    · exact hp
    · have pruned : Reached l Loads (h ++ p.visits.reverse)
          { p.engine with threads := p.engine.liveThreads } := hp.reached.prune
      split
      · exact ⟨(pruned.report _).stop, by simp⟩
      · have next : (round dt { p with engine :=
            { p.engine with threads := p.engine.liveThreads } }).Sound l Loads h :=
          round_sound ⟨pruned, hp.running⟩
        split
        · exact ih next
        · exact next

end Pass

namespace Reached

variable {l : Limits} {Loads : Program → Prop} {h : List Visit} {e : Engine}

theorem tick (r : Reached l Loads h e) (now : Nat) :
    Reached l Loads (h ++ e.visits (.tick now)) (e.tick now).1 := by
  by_cases runs : (e.running && e.pending) = true
  · have begun : Pass.Sound l Loads h
        { engine := e.beginTick now, left := e.limits.maxStepsPerTick } := by
      refine ⟨by simpa using r.beginTick now, fun _ => ?_⟩
      rw [Bool.and_eq_true] at runs
      simpa using runs.1
    have done : Reached l Loads (h ++ (e.tickPass now).visits.reverse) (e.tickPass now).engine :=
      (Pass.rounds_sound begun).reached
    simp only [Engine.tick, Engine.visits, if_pos runs]
    split
    · exact done.request
    · exact done
  · simpa only [Engine.tick, Engine.visits, if_neg runs, List.append_nil] using r

theorem perform (r : Reached l Loads h e) (op : Engine.Operation)
    (hl : ∀ p, op = .load p → Loads p) : Reached l Loads (h ++ e.visits op) (e.perform op) := by
  cases op with
  | load p => simpa [Engine.visits, Engine.perform] using r.load p (hl p rfl)
  | bind s => simpa [Engine.visits, Engine.perform] using r.bind s
  | start now => simpa [Engine.visits, Engine.perform] using r.start now
  | stop => simpa [Engine.visits, Engine.perform] using r.stop
  | tick now => exact r.tick now

theorem performAll (r : Reached l Loads h e) (ops : List Engine.Operation)
    (hl : ∀ p, .load p ∈ ops → Loads p) :
    Reached l Loads (h ++ e.history ops) (e.performAll ops) := by
  induction ops generalizing h e with
  | nil => simpa [Engine.history, Engine.performAll] using r
  | cons op ops ih =>
    have first := r.perform op (fun p hp => hl p (by simp [hp]))
    have rest := ih first (fun p hp => hl p (List.mem_cons_of_mem _ hp))
    rw [List.append_assoc] at rest
    exact rest

theorem visits (r : Reached l Loads h e) {now : Nat} {v : Visit} (hv : v ∈ e.visits (.tick now)) :
    ∃ h', Reached l Loads h' v.engine ∧ v.Due := by
  obtain ⟨before, after, split⟩ := List.append_of_mem hv
  have ticked := r.tick now
  rw [split, ← List.append_assoc] at ticked
  exact ⟨_, ticked.earlier rfl⟩

theorem threadInduction {motive : ∀ h e, Reached l Loads h e → Prop}
    (fresh : ∀ s, motive [] { limits := l, store := s } (.fresh s))
    (idle : ∀ {h e e'} (r : Reached l Loads h e) (r' : Reached l Loads h e'),
      e'.threads = e.threads → e'.nextThreadId = e.nextThreadId → motive h e r → motive h e' r')
    (start : ∀ {h e} (now : Nat) (r : Reached l Loads h e),
      motive h e r → motive h (e.start now) (r.start now))
    (stop : ∀ {h e} (r : Reached l Loads h e), motive h e r → motive h e.stop r.stop)
    (prune : ∀ {h e} (r : Reached l Loads h e),
      motive h e r → motive h { e with threads := e.liveThreads } r.prune)
    (step : ∀ {h} (v : Visit) (due : v.Due) (r : Reached l Loads h v.engine),
      motive h v.engine r → motive (h ++ [v]) v.after (.step v due r))
    {h : List Visit} {e : Engine} (r : Reached l Loads h e) : motive h e r := by
  induction r with
  | fresh s => exact fresh s
  | load p hp r ih => exact idle r (r.load p hp) rfl rfl ih
  | bind s r ih => exact idle r (r.bind s) rfl rfl ih
  | start now r ih => exact start now r ih
  | stop r ih => exact stop r ih
  | report line r ih => exact idle r (r.report line) rfl rfl ih
  | request r ih => exact idle r r.request rfl rfl ih
  | beginTick now r ih => exact idle r (r.beginTick now) (by simp) (by simp) ih
  | prune r ih => exact prune r ih
  | count r ih => exact idle r r.count rfl rfl ih
  | step v due r ih => exact step v due r ih

theorem runFrom (l : Limits) (s : Store) (ops : List Engine.Operation) :
    Reached l (fun p => .load p ∈ ops) (({ limits := l, store := s } : Engine).history ops)
      (({ limits := l, store := s } : Engine).performAll ops) := by
  have start : Reached l (fun p => .load p ∈ ops) [] { limits := l, store := s } := .fresh s
  exact start.performAll ops (fun _ hp => hp)

theorem run (l : Limits) (ops : List Engine.Operation) :
    Reached l (fun p => .load p ∈ ops) (({ limits := l } : Engine).history ops)
      (({ limits := l } : Engine).performAll ops) :=
  runFrom l .empty ops

end Reached

end BlockStage
