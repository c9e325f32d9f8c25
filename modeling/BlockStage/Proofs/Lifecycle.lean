import BlockStage.Proofs.Course

/-! # The life of a run

Between operations, an engine runs exactly if it has threads and exactly if it has asked for a tick,
and one that does not run shows no highlight. A tick is idle only in an engine that does not run; in
one that runs, the step that ends the run is the last one of its tick. From then on nothing is
stepped until a start succeeds.
-/
namespace BlockStage

namespace Engine

variable {e : Engine} {now : Nat}

/-- The newest report about highlights: a block, or that there is none to highlight. -/
def lastHighlight? (e : Engine) : Option (Option String) := e.signals.findSome? Signal.highlighted?

/-- What holds between operations. -/
structure Coherent (e : Engine) : Prop where
  pending : e.pending = e.running
  threads : e.threads.isEmpty = !e.running
  highlight : e.running = false → e.lastHighlight? = none ∨ e.lastHighlight? = some none

/-! ## Starting -/

/-- A start would succeed: there are an actor and a program with scripts. -/
def ready (e : Engine) : Bool :=
  match e.program, e.sprite with
  | some p, some _ => !p.scripts.isEmpty
  | _, _ => false

theorem start_of_not_ready (h : e.ready = false) (now : Nat) :
    ∃ line, e.start now = e.report line := by
  unfold ready at h
  unfold start
  split
  next p s hp hs =>
    rw [hp, hs] at h
    have none : p.scripts.isEmpty = true := by simpa using h
    rw [if_pos none]
    exact ⟨_, rfl⟩
  next => exact ⟨_, rfl⟩

theorem start_of_ready (h : e.ready = true) (now : Nat) :
    ∃ p line, e.program = some p ∧ p.scripts ≠ [] ∧ e.start now = { e with
      threads := startThreads e.tickCount e.nextThreadId p.scripts
      nextThreadId := e.nextThreadId + p.scripts.length
      lastTick := now, windowStart := now, opsThisSecond := 0, running := true, pending := true
      signals := .log line :: e.signals } := by
  unfold ready at h
  split at h
  next p s hp hs =>
    have nonempty : p.scripts ≠ [] := by simpa using h
    refine ⟨p, s!"Engine started ({p.scripts.length} script(s)).", hp, nonempty, ?_⟩
    simp only [start, hp, hs, List.isEmpty_iff, if_neg nonempty]
    rfl
  next => cases h

/-- The operation is a start that succeeds. -/
def starts (e : Engine) : Operation → Bool
  | .start _ => e.ready
  | _ => false

/-- None of the operations passes the test in the engine that it finds. -/
def Never (test : Engine → Operation → Bool) : Engine → List Operation → Prop
  | _, [] => True
  | e, op :: ops => test e op = false ∧ Never test (e.perform op) ops

/-! ## Single ticks -/

theorem tick_of_not_running (h : e.running = false) (now : Nat) : e.tick now = (e, .idle) := by
  simp [tick, h]

/-- A tick of a running engine is made of its passes; if the run goes on, the next one is asked
for. -/
theorem tick_of_running (running : e.running = true) (pending : e.pending = true) (now : Nat) :
    e.visits (.tick now) = (e.tickPass now).visits.reverse ∧
    (((e.tickPass now).engine.running = true ∧
        e.tick now = ({ (e.tickPass now).engine with pending := true }, .continued)) ∨
      ((e.tickPass now).engine.running = false ∧
        e.tick now = ((e.tickPass now).engine, .stopped))) := by
  simp only [visits, tick, running, pending, Bool.and_self, if_true, true_and]
  cases (e.tickPass now).engine.running <;> simp

/-- A tick that is asked for takes its course, and any other is idle. -/
theorem tick_cases (e : Engine) (now : Nat) :
    (e.running && e.pending) = false ∧ e.visits (.tick now) = [] ∧ e.tick now = (e, .idle) ∨
    (e.running && e.pending) = true ∧ ∃ e', Ends (e.beginTick now) (e.visits (.tick now)) e' ∧
      (e'.running = true ∧ e.tick now = ({ e' with pending := true }, .continued) ∨
        e'.running = false ∧ e.tick now = (e', .stopped)) := by
  cases asked : e.running && e.pending with
  | false => exact Or.inl ⟨rfl, by simp [visits, asked], by simp [tick, asked]⟩
  | true =>
    obtain ⟨running, pending⟩ := Bool.and_eq_true_iff.mp asked
    have ends := tickPass_ends running now
    obtain ⟨taken, result⟩ := tick_of_running running pending now
    rw [← taken] at ends
    exact Or.inr ⟨rfl, _, ends, result⟩

/-- The ways in which a tick can end the run, with the engine behind its last step. -/
inductive Rests (b : Engine) : Engine → Prop where
  /-- The last step has stopped the run itself. -/
  | halted : Rests b b
  | finished : Rests b (b.report "All scripts finished.").stop
  | exceeded : Rests b (b.countOp.report safetyLine).stop

theorem Ends.course {e₀ : Engine} {vs : List Visit} (h : Ends e₀ vs e)
    (runs : e.running = true) : Course e₀ vs e := by
  cases h with
  | going course => exact course
  | finished => cases runs
  | exceeded => cases runs
  | halted _ stops =>
    rw [stops] at runs
    cases runs

theorem Ends.stop {e₀ : Engine} {vs : List Visit} (h : Ends e₀ vs e)
    (running : e₀.running = true) (stopped : e.running = false) : ∃ e' : Engine, e = e'.stop := by
  cases h with
  | going course =>
    rw [course.running, running] at stopped
    cases stopped
  | finished => exact ⟨_, rfl⟩
  | exceeded => exact ⟨_, rfl⟩
  | halted taken =>
    rcases taken.due.after_frame with ⟨_, e', _, after⟩ | ⟨goes, _⟩
    · exact ⟨e', after⟩
    · rw [stopped] at goes
      cases goes

theorem Ends.rests {e₀ : Engine} {vs : List Visit} (h : Ends e₀ vs e)
    (running : e₀.running = true) (stopped : e.running = false) : Rests (e₀.behind vs) e := by
  cases h with
  | going course =>
    rw [course.running, running] at stopped
    cases stopped
  | finished _ course =>
    obtain ⟨threads, _, rfl⟩ := course.since_step
    exact .finished
  | exceeded _ _ _ _ _ course =>
    obtain ⟨threads, _, rfl⟩ := course.since_step
    exact .exceeded
  | halted =>
    rw [behind_snoc]
    exact .halted

theorem Ends.tickCount {e₀ : Engine} {vs : List Visit} (h : Ends e₀ vs e) :
    e.tickCount = e₀.tickCount := by
  cases h with
  | going course =>
    obtain ⟨_, _, _, _, _, rfl⟩ := course.frame
    rfl
  | finished _ course =>
    obtain ⟨_, _, _, _, _, rfl⟩ := course.frame
    rfl
  | exceeded _ _ _ _ _ course =>
    obtain ⟨_, _, _, _, _, rfl⟩ := course.frame
    rfl
  | halted taken _ course =>
    obtain ⟨_, _, _, _, _, rfl⟩ := course.frame
    have counted := congrArg Engine.tickCount taken.counted
    exact taken.due.after_cases.2.1.trans counted

theorem Ends.after_running {e₀ : Engine} {before after : List Visit} {v : Visit}
    (h : Ends e₀ (before ++ v :: after) e) (stops : v.after.running = false) :
    after = [] ∧ e = v.after := by
  have goes : ∀ {vs e'}, Course e₀ vs e' → v ∉ vs := by
    intro vs e' course there
    rw [course.after_running v there] at stops
    cases stops
  generalize split : before ++ v :: after = vs at h
  cases h with
  | going course => exact absurd (split ▸ by simp) (goes course)
  | finished _ course => exact absurd (split ▸ by simp) (goes course)
  | exceeded _ _ _ _ _ course => exact absurd (split ▸ by simp) (goes course)
  | halted _ _ course =>
    rcases List.eq_nil_or_concat after with rfl | ⟨rest, w, rfl⟩
    · obtain ⟨_, last⟩ := List.append_inj' split rfl
      obtain rfl := (List.cons.inj last).1
      exact ⟨rfl, rfl⟩
    · rw [List.concat_eq_append, ← List.cons_append, ← List.append_assoc] at split
      obtain ⟨earlier, _⟩ := List.append_inj' split rfl
      exact absurd (earlier ▸ by simp) (goes course)

/-! ## Coherence -/

namespace Coherent

theorem stop (e : Engine) : e.stop.Coherent := ⟨rfl, rfl, fun _ => Or.inr rfl⟩

theorem report (h : e.Coherent) (line : String) : (e.report line).Coherent :=
  ⟨h.pending, h.threads, h.highlight⟩

theorem start (h : e.Coherent) (now : Nat) : (e.start now).Coherent := by
  cases ready : e.ready with
  | false =>
    obtain ⟨line, same⟩ := start_of_not_ready ready now
    rw [same]
    exact h.report line
  | true =>
    obtain ⟨p, line, _, some, same⟩ := start_of_ready ready now
    rw [same]
    refine ⟨rfl, ?_, by simp⟩
    obtain ⟨s, ss, split⟩ := List.exists_cons_of_ne_nil some
    rw [split]
    rfl

theorem tick (h : e.Coherent) (now : Nat) : (e.tick now).1.Coherent := by
  cases running : e.running with
  | false =>
    rw [tick_of_not_running running]
    exact h
  | true =>
    have begun : (e.beginTick now).threads ≠ [] := by
      have threads := h.threads
      rw [running] at threads
      simpa using threads
    have ends := tickPass_ends running now
    rcases (tick_of_running running (h.pending.trans running) now).2 with
      ⟨goes, same⟩ | ⟨stopped, same⟩
    · have threads := (ends.course goes).threads_ne_nil begun
      rw [same]
      refine ⟨goes.symm, ?_, fun stopped => ?_⟩
      · dsimp only
        rw [goes]
        simpa using threads
      · rw [goes] at stopped
        cases stopped
    · obtain ⟨e', stops⟩ := ends.stop (by simpa using running) stopped
      rw [same, stops]
      exact stop e'

theorem perform (h : e.Coherent) (op : Operation) : (e.perform op).Coherent := by
  cases op with
  | load p => exact ⟨h.pending, h.threads, h.highlight⟩
  | bind s => exact ⟨h.pending, h.threads, h.highlight⟩
  | start now => exact h.start now
  | stop => exact stop e
  | tick now => exact h.tick now

theorem performAll (h : e.Coherent) (ops : List Operation) : (e.performAll ops).Coherent := by
  induction ops generalizing e with
  | nil => exact h
  | cons op ops ih => exact ih (h.perform op)

theorem run (l : Limits) (ops : List Operation) :
    (({ limits := l } : Engine).performAll ops).Coherent := by
  have fresh : ({ limits := l } : Engine).Coherent := ⟨rfl, rfl, fun _ => Or.inl rfl⟩
  exact fresh.performAll ops

end Coherent

/-! ## After the end -/

/-- What the host itself provides with an operation. -/
def provide (e : Engine) : Operation → Engine
  | .load p => e.load p
  | .bind s => e.bind s
  | _ => e

/-- Nothing differs but the signals. -/
def Tells (e e' : Engine) : Prop := ∃ signals, e' = { e with signals := signals }

theorem Coherent.stop_tells (h : e.Coherent) (stopped : e.running = false) : e.Tells e.stop := by
  have pending := h.pending
  have threads := h.threads
  rw [stopped] at pending threads
  have bare : e.threads = [] := by simpa using threads
  refine ⟨.highlight none :: e.signals, ?_⟩
  cases e
  simp_all [Engine.stop, Engine.highlight]

/-- An operation on an engine that does not run takes no step and changes nothing but what the host
provides, unless it is a start that succeeds. -/
theorem Coherent.perform_stopped (h : e.Coherent) (stopped : e.running = false) {op : Operation}
    (unstarted : e.starts op = false) :
    e.visits op = [] ∧ (e.provide op).Tells (e.perform op) := by
  cases op with
  | load p => exact ⟨rfl, _, rfl⟩
  | bind s => exact ⟨rfl, _, rfl⟩
  | start now =>
    obtain ⟨line, same⟩ := start_of_not_ready unstarted now
    refine ⟨rfl, .log line :: e.signals, ?_⟩
    rw [Engine.perform, same]
    rfl
  | stop => exact ⟨rfl, h.stop_tells stopped⟩
  | tick now =>
    constructor
    · simp [visits, stopped]
    · rw [Engine.perform, tick_of_not_running stopped]
      exact ⟨_, rfl⟩

theorem provide_tells {e' : Engine} (h : e.Tells e') (ops : List Operation) :
    (ops.foldl provide e).Tells (ops.foldl provide e') := by
  induction ops generalizing e e' with
  | nil => exact h
  | cons op ops ih =>
    obtain ⟨signals, rfl⟩ := h
    apply ih
    cases op <;> exact ⟨signals, rfl⟩

theorem Coherent.performAll_stopped (h : e.Coherent) (stopped : e.running = false)
    {ops : List Operation} (unstarted : Never starts e ops) :
    e.history ops = [] ∧ (ops.foldl provide e).Tells (e.performAll ops) := by
  induction ops generalizing e with
  | nil => exact ⟨rfl, _, rfl⟩
  | cons op ops ih =>
    obtain ⟨first, later⟩ := unstarted
    obtain ⟨none, told⟩ := h.perform_stopped stopped first
    have still : (e.perform op).running = false := by
      obtain ⟨_, same⟩ := told
      rw [same]
      cases op <;> exact stopped
    obtain ⟨rest, signals, same⟩ := ih (h.perform op) still later
    constructor
    · rw [history, none, rest]
      rfl
    · obtain ⟨_, provided⟩ := provide_tells told ops
      refine ⟨signals, ?_⟩
      change (e.perform op).performAll ops = _
      rw [same, provided]
      rfl

end Engine

/-- What a tick at the given time does to the run. -/
structure Engine.TickLife (e : Engine) (now : Nat) : Prop where
  idle : (e.tick now).2 = .idle ↔ e.running = false
  unchanged : e.running = false → (e.tick now).1 = e
  counted : e.running = true → (e.tick now).1.tickCount = e.tickCount + 1
  stopped : e.running = true → ((e.tick now).2 = .stopped ↔ (e.tick now).1.running = false)
  last : ∀ before v after, e.visits (.tick now) = before ++ v :: after →
    v.after.running = false → after = [] ∧ (e.tick now).1 = v.after
  rests : (e.tick now).2 = .stopped →
    Rests ((e.beginTick now).behind (e.visits (.tick now))) (e.tick now).1

theorem Engine.Coherent.tickLife {e : Engine} (h : e.Coherent) (now : Nat) : e.TickLife now := by
  cases running : e.running with
  | false =>
    have idle := tick_of_not_running running now
    have none : e.visits (.tick now) = [] := by simp [visits, running]
    constructor
    · simp [idle, running]
    · intro _
      rw [idle]
    · simp [running]
    · simp [running]
    · intro before v after split
      rw [none] at split
      simp at split
    · simp [idle]
  | true =>
    have ends := tickPass_ends running now
    have begun : (e.beginTick now).running = true := by simpa using running
    obtain ⟨visits, result⟩ := tick_of_running running (h.pending.trans running) now
    have count : (e.tickPass now).engine.tickCount = e.tickCount + 1 := by
      rw [ends.tickCount]
      simp
    rw [← visits] at ends
    constructor
    · rcases result with ⟨_, same⟩ | ⟨_, same⟩ <;> simp [same, running]
    · simp [running]
    · intro _
      rcases result with ⟨_, same⟩ | ⟨_, same⟩ <;> rw [same] <;> exact count
    · intro _
      rcases result with ⟨goes, same⟩ | ⟨stopped, same⟩
      · simp [same, goes]
      · simp [same, stopped]
    · intro before v after split stops
      rw [split] at ends
      obtain ⟨last, left⟩ := ends.after_running stops
      rcases result with ⟨goes, _⟩ | ⟨_, same⟩
      · rw [left, stops] at goes
        cases goes
      · rw [same]
        exact ⟨last, left⟩
    · intro told
      rcases result with ⟨_, same⟩ | ⟨stopped, same⟩
      · rw [same] at told
        cases told
      · rw [same]
        exact ends.rests begun stopped

/-- In every run the engine is coherent between operations, its ticks keep to the life of the run,
and when it does not run, nothing is stepped until a start succeeds. -/
theorem lifecycle_invariant (l : Limits) (ops : List Engine.Operation) :
    let e := ({ limits := l } : Engine).performAll ops
    e.Coherent ∧ (∀ now, e.TickLife now) ∧
    (e.running = false → ∀ more, Engine.Never Engine.starts e more →
      e.history more = [] ∧ (more.foldl Engine.provide e).Tells (e.performAll more)) := by
  intro e
  have coherent : e.Coherent := Engine.Coherent.run l ops
  refine ⟨coherent, ?_, ?_⟩
  · intro now
    exact coherent.tickLife now
  · intro stopped more unstarted
    exact coherent.performAll_stopped stopped unstarted

end BlockStage
