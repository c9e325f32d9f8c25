import BlockStage.Proofs.Independence.Tracking
import BlockStage.Proofs.Ticks

/-! # Scripts that have nothing to do with each other

Scripts that share no variable, and of which one at most moves the actor, each do in a common run
what they do alone. Their threads take turns in an order that depends on limits and on the clock,
and none of this can be seen in the variables and the actor behind the run.
-/
namespace BlockStage

open Structured (Fiber)

structure Script.Apart (s s' : Script) : Prop where
  names : s.uses.Disjoint s'.uses
  actor : s.moves = false ∨ s'.moves = false

theorem Script.Apart.symm {s s' : Script} (h : s.Apart s') : s'.Apart s :=
  ⟨h.names.symm, h.actor.symm⟩

instance (s s' : Script) : Decidable (s.Apart s') :=
  decidable_of_iff ((∀ n ∈ s.uses, n ∉ s'.uses) ∧ (s.moves = false ∨ s'.moves = false))
    ⟨fun h => ⟨h.1, h.2⟩, fun h => ⟨h.names, h.actor⟩⟩

/-- There are no handlers, nothing stops all scripts, and the scripts have nothing to do with each
other. -/
structure Program.Independent (p : Program) : Prop where
  unhandled : p.handlers = .empty
  unstopped : ∀ s ∈ p.scripts, ∀ c ∈ s.allCommands, c.isStopAll = false
  apart : p.scripts.Pairwise Script.Apart

namespace Program.Independent

variable {p : Program}

theorem apart_of_ne (h : p.Independent) {i j : Nat} {s s' : Script} (hi : p.scripts[i]? = some s)
    (hj : p.scripts[j]? = some s') (differs : i ≠ j) : s.Apart s' := by
  obtain ⟨inside, rfl⟩ := List.getElem?_eq_some_iff.mp hi
  obtain ⟨inside', rfl⟩ := List.getElem?_eq_some_iff.mp hj
  rcases Nat.lt_or_gt_of_ne differs with lt | gt
  · exact List.pairwise_iff_getElem.mp h.apart i j inside inside' lt
  · exact (List.pairwise_iff_getElem.mp h.apart j i inside' inside gt).symm

theorem called (h : p.Independent) {e : Engine} (program : e.program = some p) (m : Expr) :
    e.called m = [] := by
  simp only [Engine.called, Engine.handlersFor, program, Program.handlersFor, h.unhandled]
  rfl

theorem alone (h : p.Independent) {s : Script} (mem : s ∈ p.scripts) :
    Program.Independent ⟨[s], .empty⟩ := by
  refine ⟨rfl, fun s' hs' => ?_, List.pairwise_singleton _ s⟩
  rw [List.mem_singleton.mp hs']
  exact h.unstopped s mem

end Program.Independent

namespace Engine

/-- A thread runs the script, or the script is over. -/
inductive Follows (e : Engine) (id : Nat) (s : Script) (x : Solo) : Prop where
  | live {t} (mem : t ∈ e.threads) (same : t.id = id) (runs : e.Runs s t x)
  | gone (away : ∀ t ∈ e.threads, t.id ≠ id) (tracks : e.Tracks s [] none x)

/-- Every script has come somewhere on its way alone, and nothing else has happened. -/
structure Together (p : Program) (v : Store) (a : Sprite) (base : Nat) (e : Engine) : Prop where
  program : e.program = some p
  bound : e.sprite.isSome = true
  distinct : (e.threads.map Thread.id).Nodup
  known : ∀ t ∈ e.threads, ∃ j s, p.scripts[j]? = some s ∧ t.id = base + j
  follows : ∀ j s, p.scripts[j]? = some s →
    ∃ k, e.Follows (base + j) s (Solo.step^[k] (.start s v a))
  rest : ∀ n, (∀ s ∈ p.scripts, n ∉ s.uses) → e.store.find? n = v.find? n
  still : (∀ s ∈ p.scripts, s.moves = false) → e.sprite = some a

variable {e e' : Engine} {p : Program} {vars : Store} {a : Sprite} {base : Nat}

/-! ## Moves that are not steps -/

theorem Together.idle (h : e.Together p vars a base) (program : e'.program = e.program)
    (sprite : e'.sprite = e.sprite) (store : e'.store = e.store) (threads : e'.threads = e.threads)
    (later : e.tickCount ≤ e'.tickCount) : e'.Together p vars a base := by
  have tracks : ∀ {s frames action x}, e.Tracks s frames action x → e'.Tracks s frames action x :=
    fun tracked => tracked.frame (fun _ _ => by rw [store]) fun _ => sprite
  refine ⟨program.trans h.program, by rw [sprite]; exact h.bound, by rw [threads]; exact h.distinct,
    by rw [threads]; exact h.known, fun j s hj => ?_, by rw [store]; exact h.rest,
    by rw [sprite]; exact h.still⟩
  obtain ⟨k, follows⟩ := h.follows j s hj
  refine ⟨k, ?_⟩
  cases follows with
  | live mem same runs =>
    exact .live (threads ▸ mem) same ⟨runs.controlled.mono later, runs.idle, tracks runs.tracks⟩
  | gone away tracked => exact .gone (threads ▸ away) (tracks tracked)

theorem Together.prune (h : e.Together p vars a base) :
    ({ e with threads := e.liveThreads } : Engine).Together p vars a base := by
  refine ⟨h.program, h.bound, h.distinct.sublist (List.filter_sublist.map _),
    fun t ht => h.known t (List.mem_of_mem_filter ht), fun j s hj => ?_, h.rest, h.still⟩
  obtain ⟨k, follows⟩ := h.follows j s hj
  refine ⟨k, ?_⟩
  cases follows with
  | @live t mem same runs =>
    by_cases finished : t.finished = true
    · have bare : t.frames = [] := runs.controlled.finished_iff.mp finished
      have spent : t.current? = none := by rw [Thread.current?, bare]; rfl
      have tracks := runs.tracks
      rw [bare, (runs.controlled.idle_of_spent spent).1] at tracks
      -- the thread is dropped with nothing in flight, so the actor is where the script has it
      refine .gone (fun u hu other => ?_) ⟨tracks.alike, tracks.poses⟩
      have mem' : u ∈ e.threads := List.mem_of_mem_filter hu
      obtain rfl : u = t := List.inj_on_of_nodup_map h.distinct mem' mem (other.trans same.symm)
      simp [liveThreads, finished] at hu
    · have live : t ∈ e.liveThreads := List.mem_filter.mpr ⟨mem, by simpa using finished⟩
      exact .live live same ⟨runs.controlled, runs.idle, runs.tracks.alike, runs.tracks.poses⟩
  | gone away tracks =>
    exact .gone (fun t ht => away t (List.mem_of_mem_filter ht)) ⟨tracks.alike, tracks.poses⟩

/-! ## Steps -/

theorem Together.runs (h : e.Together p vars a base) {t : Thread} (mem : t ∈ e.threads) :
    ∃ j s k, p.scripts[j]? = some s ∧ t.id = base + j ∧
      e.Runs s t (Solo.step^[k] (.start s vars a)) := by
  obtain ⟨j, s, hj, number⟩ := h.known t mem
  obtain ⟨k, follows⟩ := h.follows j s hj
  refine ⟨j, s, k, hj, number, ?_⟩
  cases follows with
  | live mem' same runs =>
    have one := List.inj_on_of_nodup_map h.distinct mem mem' (number.trans same.symm)
    rw [one]
    exact runs
  | gone away _ => exact absurd number (away t mem)

end Engine

namespace Visit

variable {v : Visit}

theorem Due.after_quiet (due : v.Due)
    (quiet : v.engine.Quiet (v.engine.stepThread v.thread v.dt).1) :
    v.after = { (v.engine.stepThread v.thread v.dt).1 with
      threads := v.engine.threads.set v.position v.stepped } := by
  have runs : (v.engine.stepThread v.thread v.dt).1.running = true :=
    quiet.running.trans due.running
  simp only [after, Engine.stepAt, runs, if_true, quiet.threads, stepped]

theorem Due.mem_set_self (due : v.Due) :
    v.stepped ∈ v.engine.threads.set v.position v.stepped := by
  obtain ⟨inside, _⟩ := List.getElem?_eq_some_iff.mp due.listed
  exact List.mem_of_getElem? (List.getElem?_set_self inside)

theorem Due.mem_set_of_ne (due : v.Due) {t : Thread} (mem : t ∈ v.engine.threads)
    (other : t.id ≠ v.thread.id) : t ∈ v.engine.threads.set v.position v.stepped := by
  obtain ⟨i, hi⟩ := List.mem_iff_getElem?.mp mem
  have elsewhere : v.position ≠ i := by
    rintro rfl
    obtain rfl := Option.some.inj (due.listed.symm.trans hi)
    exact other rfl
  exact List.mem_of_getElem? ((List.getElem?_set_ne elsewhere).trans hi)

end Visit

namespace Engine

variable {v : Visit} {e e' : Engine} {p : Program} {vars : Store} {a : Sprite} {base : Nat}

theorem Runs.follows_after {s : Script} {x x' : Solo} (runs : v.engine.Runs s v.thread x)
    (due : v.Due) (within : Within s v.engine (v.engine.stepThread v.thread v.dt).1)
    (idle : v.stepped.waitingOn = none)
    (tracks : (v.engine.stepThread v.thread v.dt).1.Tracks s v.stepped.frames v.stepped.action x') :
    v.after.Follows v.thread.id s x' := by
  have controlled := v.effect.controlled runs.controlled due.unfinished
  rw [due.after_quiet within.quiet]
  refine .live due.mem_set_self v.stepped_id ⟨?_, idle, tracks.alike, tracks.poses⟩
  change v.stepped.Controlled _ (v.engine.stepThread v.thread v.dt).1.tickCount
  rw [within.quiet.tickCount]
  exact controlled

theorem Follows.after_other {s s' : Script} {id : Nat} {x : Solo} (h : v.engine.Follows id s' x)
    (due : v.Due) (within : Within s v.engine (v.engine.stepThread v.thread v.dt).1)
    (apart : s.Apart s') (other : id ≠ v.thread.id) : v.after.Follows id s' x := by
  have tracks : ∀ {frames action}, v.engine.Tracks s' frames action x →
      v.after.Tracks s' frames action x := by
    intro frames action tracked
    rw [due.after_quiet within.quiet]
    refine tracked.frame (within.store _ apart.names) fun moves => within.actor ?_
    rcases apart.actor with still | still
    · exact still
    · rw [moves] at still
      cases still
  rw [due.after_quiet within.quiet] at tracks ⊢
  cases h with
  | @live t mem same runs =>
    refine .live (due.mem_set_of_ne mem (same ▸ other)) same ⟨?_, runs.idle, tracks runs.tracks⟩
    change t.Controlled _ (v.engine.stepThread v.thread v.dt).1.tickCount
    rw [within.quiet.tickCount]
    exact runs.controlled
  | gone away tracked =>
    refine .gone (fun t ht => ?_) (tracks tracked)
    rcases List.mem_or_eq_of_mem_set ht with old | rfl
    · exact away t old
    · rw [v.stepped_id]
      exact other.symm

/-- A step takes one script on, and no other script can tell. -/
theorem Together.step (ind : p.Independent) (h : v.engine.Together p vars a base) (due : v.Due) :
    v.after.running = true ∧ v.after.Together p vars a base := by
  obtain ⟨j, s, k, hj, number, runs⟩ := h.runs due.mem
  obtain ⟨b, actor⟩ := Option.isSome_iff_exists.mp h.bound
  have mine : s ∈ p.scripts := List.mem_of_getElem? hj
  obtain ⟨within, idle, x', took, tracks⟩ :=
    runs.step due.unfinished (ind.unstopped s mine) (ind.called h.program) actor v.dt
  -- the script of the stepped thread goes on; for all others this is a step of somebody else
  have follows : ∀ i s', p.scripts[i]? = some s' →
      ∃ k, v.after.Follows (base + i) s' (Solo.step^[k] (.start s' vars a)) := by
    intro i s' hi
    by_cases same : i = j
    · subst same
      obtain rfl := Option.some.inj (hi.symm.trans hj)
      have mine' := runs.follows_after due within idle tracks
      rw [number] at mine'
      rcases took with rfl | rfl
      · exact ⟨k, mine'⟩
      · exact ⟨k + 1, by rwa [Function.iterate_succ_apply']⟩
    · obtain ⟨k', follows⟩ := h.follows i s' hi
      exact ⟨k', follows.after_other due within (ind.apart_of_ne hj hi (Ne.symm same)) (by omega)⟩
  rw [due.after_quiet within.quiet] at follows ⊢
  refine ⟨within.quiet.running.trans due.running, within.quiet.program.trans h.program,
    within.bound h.bound, by rw [due.ids_set]; exact h.distinct, fun t ht => ?_, follows,
    fun n unused => ?_, fun still => ?_⟩
  · rcases List.mem_or_eq_of_mem_set ht with old | rfl
    · exact h.known t old
    · exact ⟨j, s, hj, v.stepped_id.trans number⟩
  · rw [← h.rest n unused]
    refine within.store [n] (fun m used hm => ?_) n List.mem_cons_self
    exact unused s mine (List.mem_singleton.mp hm ▸ used)
  · rw [← h.still still]
    exact within.actor (still s mine)

theorem Together.keeps (ind : p.Independent) : Keeps (Together p vars a base) where
  begins e now h := by
    obtain ⟨_, _, begun⟩ := e.beginTick_eq now
    rw [begun]
    exact h.idle rfl rfl rfl rfl (Nat.le_succ _)
  prunes _ h := h.prune
  counts _ h := h.idle rfl rfl rfl rfl (Nat.le_refl _)
  requests _ h := h.idle rfl rfl rfl rfl (Nat.le_refl _)
  steps _ due h _ := (h.step ind due).2

/-! ## Whole runs -/

theorem start_running (program : e.program = some p) (actor : e.sprite = some a)
    (busy : p.scripts ≠ []) (now : Nat) : (e.start now).running = true := by
  simp [start, program, actor, busy, report]

theorem start_together (program : e.program = some p) (actor : e.sprite = some a)
    (busy : p.scripts ≠ []) (now : Nat) :
    (e.start now).Together p e.store a e.nextThreadId := by
  have threads : (e.start now).threads = startThreads e.tickCount e.nextThreadId p.scripts := by
    simp [start, program, actor, busy, report, spawn]
  have store : (e.start now).store = e.store := by
    simp [start, program, actor, busy, report, spawn]
  have sprite : (e.start now).sprite = some a := by
    simp [start, program, actor, busy, report, spawn]
  refine ⟨(e.start_program now).trans program, by simp [sprite], ?_, fun t ht => ?_,
    fun j s hj => ⟨0, ?_⟩, fun n _ => by rw [store], fun _ => sprite⟩
  · rw [threads, startThreads_ids]
    exact List.nodup_range'
  · rw [threads] at ht
    obtain ⟨j, hj⟩ := List.mem_iff_getElem?.mp ht
    rw [startThreads_getElem?] at hj
    obtain ⟨s, hs, rfl⟩ := Option.map_eq_some_iff.mp hj
    exact ⟨j, s, hs, rfl⟩
  · have listed : Thread.start (e.nextThreadId + j) s e.tickCount ∈ (e.start now).threads := by
      rw [threads]
      exact List.mem_of_getElem? ((startThreads_getElem? ..).trans (by rw [hj]; rfl))
    refine .live listed rfl ⟨?_, rfl, ⟨rfl, rfl, fun n _ => ?_⟩, fun _ => ⟨a, sprite, rfl⟩⟩
    · rw [start_tickCount]
      exact Thread.start_controlled rfl
    · change (e.start now).store.find? n = e.store.find? n
      rw [store]

/-- What a run of the program that ends with its scripts leaves behind. -/
structure Settles (p : Program) (v : Store) (a : Sprite) (e : Engine) : Prop where
  each : ∀ s ∈ p.scripts, ∃ k, (Solo.step^[k] (.start s v a)).fiber.frames = [] ∧
    Agree s.uses e.store (Solo.step^[k] (.start s v a)).fiber.store ∧
    (s.moves = true → e.sprite = some (Solo.step^[k] (.start s v a)).sprite)
  rest : ∀ n, (∀ s ∈ p.scripts, n ∉ s.uses) → e.store.find? n = v.find? n
  still : (∀ s ∈ p.scripts, s.moves = false) → e.sprite = some a

theorem Together.settles (h : e.Together p vars a base) (done : e.threads = []) :
    e.Settles p vars a := by
  refine ⟨fun s mem => ?_, h.rest, h.still⟩
  obtain ⟨j, hj⟩ := List.mem_iff_getElem?.mp mem
  obtain ⟨k, follows⟩ := h.follows j s hj
  cases follows with
  | live mem _ _ => rw [done] at mem; cases mem
  | gone _ tracks =>
    refine ⟨k, tracks.alike.frames.symm, tracks.alike.store, fun moves => ?_⟩
    obtain ⟨b, bound, poses⟩ := tracks.poses moves
    rw [bound, show b = _ from poses]

def lastLine? (e : Engine) : Option String := e.signals.findSome? Signal.line?

/-- The engine is behind a run of the program from the variables and the actor, under any limits and
at any times, that has ended with the last of the scripts. -/
def Completes (p : Program) (v : Store) (a : Sprite) (e' : Engine) : Prop :=
  ∃ (e : Engine) (now : Nat) (times : Nat → Nat) (n : Nat),
    e.program = some p ∧ e.store = v ∧ e.sprite = some a ∧ e.running = false ∧
    e' = (e.start now).ticks times n ∧ e'.running = false ∧
    e'.lastLine? = some "All scripts finished."

theorem start_of_bare (program : e.program = some p) (actor : e.sprite = some a)
    (bare : p.scripts = []) (now : Nat) :
    e.start now = e.report "No start scripts found." := by
  simp [start, program, actor, bare]

theorem Completes.settles (ind : p.Independent) (h : e.Completes p vars a) :
    e.Settles p vars a := by
  obtain ⟨e, now, times, n, program, rfl, actor, stopped, rfl, ended, line⟩ := h
  by_cases bare : p.scripts = []
  · -- nothing was started, and the run ends with another line
    have start := start_of_bare program actor bare now
    have idle : (e.start now).ticks times n = e.start now := by
      apply ticks_of_stopped (m := n) (n := 0) _ (Nat.zero_le n)
      rw [ticks, start]
      exact stopped
    rw [idle, start] at line
    exact absurd (Option.some.inj line) (by decide)
  · have begun := start_together program actor bare now
    have running := start_running program actor bare now
    rcases ticks_stays (Together.keeps ind) begun running times n with ⟨runs, _⟩ | ⟨_, halts⟩
    · rw [ended] at runs
      cases runs
    · generalize (e.start now).ticks times n = e' at halts line
      cases halts with
      | finished kept done =>
        have settles := kept.settles done
        exact ⟨settles.each, settles.rest, settles.still⟩
      | exceeded _ => exact absurd (Option.some.inj line) (by decide)
      | stepped due kept stopped =>
        rw [(kept.step ind due).1] at stopped
        cases stopped

/-- A variable of a script has one last value only, however the actor stands and whatever else runs
along. -/
theorem Settles.find?_eq {p' : Program} {b : Sprite} {s : Script} (h : e.Settles p vars a)
    (h' : e'.Settles p' vars b) (mem : s ∈ p.scripts) (mem' : s ∈ p'.scripts) {n : String}
    (used : n ∈ s.uses) : e.store.find? n = e'.store.find? n := by
  obtain ⟨k, done, agree, _⟩ := h.each s mem
  obtain ⟨k', done', agree', _⟩ := h'.each s mem'
  rw [agree n used, agree' n used]
  simp only [Solo.iterate_fiber] at done done' ⊢
  have same : Fiber.step^[k] (Solo.start s vars a).fiber =
      Fiber.step^[k'] (Solo.start s vars b).fiber :=
    Fiber.final_unique (Or.inr done) (Or.inr done')
  rw [same]

theorem Settles.store_eq (h : e.Settles p vars a) (h' : e'.Settles p vars a) :
    e.store = e'.store := by
  apply Dict.ext_find?
  intro n
  by_cases used : ∃ s ∈ p.scripts, n ∈ s.uses
  · obtain ⟨s, mem, used⟩ := used
    exact h.find?_eq h' mem mem used
  · have unused : ∀ s ∈ p.scripts, n ∉ s.uses := fun s mem hn => used ⟨s, mem, hn⟩
    rw [h.rest n unused, h'.rest n unused]

theorem Settles.sprite_eq (h : e.Settles p vars a) (h' : e'.Settles p vars a) :
    e.sprite = e'.sprite := by
  by_cases moves : ∃ s ∈ p.scripts, s.moves = true
  · obtain ⟨s, mem, moves⟩ := moves
    obtain ⟨k, done, _, actor⟩ := h.each s mem
    obtain ⟨k', done', _, actor'⟩ := h'.each s mem
    rw [actor moves, actor' moves, Solo.bare_unique done done']
  · have still : ∀ s ∈ p.scripts, s.moves = false := by
      intro s mem
      by_contra moving
      exact moves ⟨s, mem, by simpa using moving⟩
    rw [h.still still, h'.still still]

end Engine

/-- Independent scripts come to the same variables and the same actor in all runs that end with the
last of them, and for each script, to what it comes to alone. -/
theorem independent_scripts_schedule_free {p : Program} (ind : p.Independent) {vars : Store}
    {a : Sprite} {e e' : Engine} (run : e.Completes p vars a) (run' : e'.Completes p vars a) :
    e.store = e'.store ∧ e.sprite = e'.sprite ∧
    ∀ s ∈ p.scripts, ∀ (b : Sprite) (alone : Engine), alone.Completes ⟨[s], .empty⟩ vars b →
      ∀ n ∈ s.uses, e.store.find? n = alone.store.find? n := by
  have settles := run.settles ind
  have settles' := run'.settles ind
  refine ⟨settles.store_eq settles', settles.sprite_eq settles', ?_⟩
  intro s mem b alone only n used
  exact settles.find?_eq (only.settles (ind.alone mem)) mem List.mem_cons_self used

/-! ## Two scripts under two schedules -/

def turnAndCount : Program where
  scripts := [
    ⟨"turn", [.simple "" (.setVar "x" (.num 1)), .simple "" (.turn (.num 10))]⟩,
    ⟨"count", [.simple "" (.wait (.num 0)), .simple "" (.changeVar "y" (.num 2))]⟩]
  handlers := .empty

theorem turnAndCount_independent : turnAndCount.Independent := ⟨rfl, by decide, by decide⟩

def Program.ran (p : Program) (l : Limits) (pace n : Nat) : Engine :=
  (({ limits := l, program := some p, sprite := some .home } : Engine).start 0).ticks
    (fun k => (k + 1) * pace) n

theorem Program.ran_completes {p : Program} {l : Limits} {pace n : Nat}
    (ended : (p.ran l pace n).running = false)
    (line : (p.ran l pace n).lastLine? = some "All scripts finished.") :
    (p.ran l pace n).Completes p .empty .home :=
  ⟨_, 0, _, n, rfl, rfl, rfl, rfl, rfl, ended, line⟩

/-- A pace of one step for each tick gives what a pace of many gives, and the counting script gives
it alone. -/
theorem turnAndCount_schedule_free :
    let e := turnAndCount.ran {} 50000000 3
    let e' := turnAndCount.ran { maxStepsPerTick := 1, maxFrameDeltaMs := 30 } 40000000 9
    let alone := Program.ran ⟨turnAndCount.scripts.tail, .empty⟩ {} 1000000 2
    e.store = e'.store ∧ e.sprite = e'.sprite ∧ e.store.find? "y" = alone.store.find? "y" := by
  intro e e' alone
  have run : e.Completes turnAndCount .empty .home :=
    Program.ran_completes (by decide +kernel) (by decide +kernel)
  have run' : e'.Completes turnAndCount .empty .home :=
    Program.ran_completes (by decide +kernel) (by decide +kernel)
  have only : alone.Completes ⟨turnAndCount.scripts.tail, .empty⟩ .empty .home :=
    Program.ran_completes (by decide +kernel) (by decide +kernel)
  obtain ⟨store, sprite, each⟩ :=
    independent_scripts_schedule_free turnAndCount_independent run run'
  exact ⟨store, sprite, each _ (List.mem_cons_of_mem _ List.mem_cons_self) .home alone only "y"
    (by decide)⟩

end BlockStage
