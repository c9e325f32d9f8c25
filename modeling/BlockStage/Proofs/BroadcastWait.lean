import BlockStage.Proofs.ControlStack
import BlockStage.Proofs.Waiting

/-! # Broadcasts that are waited for

Such a broadcast starts its handlers in its first step. Later steps only look whether one of them is
still live: until none is, the thread stays exactly as it is, and then it goes on by one command.
-/
namespace BlockStage

def Thread.Passes (t t' : Thread) : Prop :=
  ∃ f fs, t.frames = f :: fs ∧
    t' = { t with frames := { f with ip := f.ip + 1 } :: fs, waitingOn := none }

theorem Engine.Effect.awaiting {e e' : Engine} {t t' : Thread} {dt : Float} {progress : Bool}
    {id : String} {m : Expr} (h : Engine.Effect e t dt e' t' progress)
    (cur : t.current? = some (.simple id (.broadcast m true))) :
    (t.waitingOn = none ∧ ∃ e₀, e.Quiet e₀ ∧ e' = e₀.spawn (e.called m) ∧
      ((e.called m = [] ∧ t' = t.advance) ∨ (e.called m ≠ [] ∧
        t' = { t with waitingOn := some (e.freshIds (e.called m).length) }))) ∨
    ∃ ids, t.waitingOn = some ids ∧ e.Quiet e' ∧
      ((ids.any e.isLive = true ∧ t' = t) ∨
       (ids.any e.isLive = false ∧ t' = { t with waitingOn := none }.advance)) := by
  cases h with
  | empty bare => simp [Thread.current?, bare] at cur
  | closed top spent => rw [Thread.current_eq top, spent] at cur; cases cur
  | passed cur' plain _ =>
    obtain rfl := Option.some.inj (cur.symm.trans cur')
    cases plain
  | entered cur' opens _ =>
    obtain rfl := Option.some.inj (cur.symm.trans cur')
    cases opens
  | acting cur' timed _ _ =>
    obtain ⟨_, rfl⟩ := Command.simple.inj (Option.some.inj (cur.symm.trans cur'))
    cases timed
  | acted cur' timed _ =>
    obtain ⟨_, rfl⟩ := Command.simple.inj (Option.some.inj (cur.symm.trans cur'))
    cases timed
  | called cur' idle heard quiet =>
    cases cur.symm.trans cur'
    exact Or.inl ⟨idle, _, quiet, rfl, Or.inr ⟨heard, rfl⟩⟩
  | unheard cur' idle unheard quiet =>
    cases cur.symm.trans cur'
    exact Or.inl ⟨idle, _, quiet, by rw [unheard, Engine.spawn_nil], Or.inl ⟨unheard, rfl⟩⟩
  | polled _ waits live quiet => exact Or.inr ⟨_, waits, quiet, Or.inl ⟨live, rfl⟩⟩
  | resumed _ waits done quiet => exact Or.inr ⟨_, waits, quiet, Or.inr ⟨done, rfl⟩⟩
  | sent cur' _ => cases cur.symm.trans cur'
  | broke cur' _ _ => cases cur.symm.trans cur'
  | continued cur' _ _ => cases cur.symm.trans cur'
  | ended cur' _ => cases cur.symm.trans cur'
  | halted cur' _ => cases cur.symm.trans cur'

theorem Engine.Effect.called_of_waits {e e' : Engine} {t t' : Thread} {dt : Float}
    {progress : Bool} {ids : List Nat} (h : Engine.Effect e t dt e' t' progress)
    (idle : t.waitingOn = none) (waits : t'.waitingOn = some ids) :
    ∃ id m, t.current? = some (.simple id (.broadcast m true)) ∧ e.called m ≠ [] ∧
      t' = { t with waitingOn := some (e.freshIds (e.called m).length) } := by
  cases h with
  | called cur _ heard _ => exact ⟨_, _, cur, heard, rfl⟩
  | _ => simp [idle, Thread.enter, Thread.drop, Thread.finish] at waits

theorem Engine.startThreads_eq_zipWith (tick id : Nat) (scripts : List Script) :
    Engine.startThreads tick id scripts =
      List.zipWith (fun k s => Thread.start k s tick) (List.range' id scripts.length) scripts := by
  induction scripts generalizing id with
  | nil => rfl
  | cons s ss ih => simp [Engine.startThreads, List.range'_succ, ih]

namespace Visit

variable {v w : Visit} {m : Expr}

/-- The step begins a broadcast of `m` that is waited for. -/
structure Calls (v : Visit) (m : Expr) : Prop where
  command : ∃ id, v.thread.current? = some (.simple id (.broadcast m true))
  idle : v.thread.waitingOn = none

/-- The threads that the step starts, one for each handler that the loaded program has then. -/
def spawned (v : Visit) (m : Expr) : List Nat := v.engine.freshIds (v.engine.called m).length

def waiting (v : Visit) (m : Expr) : Thread := { v.thread with waitingOn := some (v.spawned m) }

def blocked (v : Visit) (m : Expr) (e : Engine) : Bool := (v.spawned m).any e.isLive

/-- None of the given steps is the one with which the thread goes on. -/
def Unanswered (v : Visit) (m : Expr) (later : List Visit) : Prop :=
  ∀ u ∈ later, u.thread.id = v.thread.id → v.blocked m u.engine = true

def Spawnless (w : Visit) : Prop :=
  w.after.threads = w.engine.threads.set w.position w.stepped ∧
    w.after.nextThreadId = w.engine.nextThreadId

theorem Due.spawnless_of_quiet (due : w.Due)
    (quiet : w.engine.Quiet (w.engine.stepThread w.thread w.dt).1) : w.Spawnless := by
  have still := (Engine.spawn_nil (w.engine.stepThread w.thread w.dt).1).symm
  obtain ⟨threads, next, _⟩ := due.after_spawn quiet still
  exact ⟨by simpa [Engine.startThreads] using threads, next⟩

theorem Calls.passes (c : v.Calls m) : v.thread.Passes v.thread.advance := by
  obtain ⟨id, cur⟩ := c.command
  obtain ⟨f, fs, top, _⟩ := Thread.frames_of_current cur
  refine ⟨f, fs, top, ?_⟩
  simp [Thread.advance, top, Frame.advance, c.idle]

/-- The first step starts the handlers, and waits for them if there are any. -/
theorem Calls.first (c : v.Calls m) (due : v.Due) :
    v.after.threads = v.engine.threads.set v.position v.stepped ++
      List.zipWith (fun id s => Thread.start id s v.engine.tickCount) (v.spawned m)
        (v.engine.called m) ∧
    v.after.nextThreadId = v.engine.nextThreadId + (v.engine.called m).length ∧
    (v.engine.called m = [] → v.stepped = v.thread.advance) ∧
    (v.engine.called m ≠ [] → v.stepped = v.waiting m) := by
  obtain ⟨id, cur⟩ := c.command
  rcases v.effect.awaiting cur with ⟨_, e₀, quiet, he, cases⟩ | ⟨ids, waits, _⟩
  · obtain ⟨threads, next, _⟩ := due.after_spawn quiet he
    rw [Engine.startThreads_eq_zipWith] at threads
    refine ⟨threads, next, ?_, ?_⟩
    · intro unheard
      rcases cases with ⟨_, passed⟩ | ⟨heard, _⟩
      · exact passed
      · exact absurd unheard heard
    · intro heard
      rcases cases with ⟨unheard, _⟩ | ⟨_, waits⟩
      · exact absurd unheard heard
      · exact waits
  · rw [c.idle] at waits; cases waits

theorem Calls.later (c : v.Calls m) (due : w.Due) (waits : w.thread = v.waiting m) :
    w.Spawnless ∧ (v.blocked m w.engine = true → w.stepped = v.waiting m) ∧
      (v.blocked m w.engine = false → w.stepped = v.thread.advance) := by
  obtain ⟨id, cur⟩ := c.command
  have cur' : w.thread.current? = some (.simple id (.broadcast m true)) := by rw [waits]; exact cur
  have waitingOn : w.thread.waitingOn = some (v.spawned m) := by rw [waits]; rfl
  rcases w.effect.awaiting cur' with ⟨idle, _⟩ | ⟨ids, waitingOn', quiet, cases⟩
  · rw [waitingOn] at idle; cases idle
  · obtain rfl := Option.some.inj (waitingOn.symm.trans waitingOn')
    refine ⟨due.spawnless_of_quiet quiet, ?_, ?_⟩
    · intro live
      rcases cases with ⟨_, same⟩ | ⟨done, _⟩
      · rw [same, waits]
      · unfold blocked at live; rw [done] at live; cases live
    · intro done
      rcases cases with ⟨live, _⟩ | ⟨_, resumed⟩
      · unfold blocked at done; rw [live] at done; cases done
      · have awake : { v.waiting m with waitingOn := none } = v.thread := by
          rw [← c.idle]; rfl
        rw [resumed, waits, awake]

theorem Unanswered.snoc {later : List Visit} (open' : v.Unanswered m later)
    (last : w.thread.id = v.thread.id → v.blocked m w.engine = true) :
    v.Unanswered m (later ++ [w]) := by
  intro u hu same
  rcases List.mem_append.mp hu with hu | hu
  · exact open' u hu same
  · obtain rfl := List.mem_singleton.mp hu
    exact last same

end Visit

namespace Reached

variable {l : Limits} {Loads : Program → Prop} {h : List Visit} {e : Engine}

theorem visited_lt (r : Reached l Loads h e) {v : Visit} (hv : v ∈ h) :
    v.thread.id < e.nextThreadId := by
  induction r using Reached.threadInduction with
  | fresh => cases hv
  | idle _ _ _ next ih => rw [next]; exact ih hv
  | @start _ e now _ ih =>
    have := ih hv
    rcases e.start_cases now with ⟨_, next⟩ | ⟨p, _, _, next⟩ <;> omega
  | stop _ ih => exact ih hv
  | prune _ ih => exact ih hv
  | step w due r ih =>
    have grows := due.nextThreadId_le
    rcases List.mem_append.mp hv with hv | hv
    · exact (ih hv).trans_le grows
    · obtain rfl := List.mem_singleton.mp hv
      exact (r.ordered.bounded _ due.mem).trans_le grows

/-- From the first step of the broadcast until the one with which it goes on, the thread stays as it
is, whatever other threads and the host do. -/
theorem held (r : Reached l Loads h e) {before after : List Visit} {v : Visit} {m : Expr}
    (hv : h = before ++ v :: after) (c : v.Calls m) (heard : v.engine.called m ≠ [])
    (open' : v.Unanswered m after) : ∀ t ∈ e.threads, t.id = v.thread.id → t = v.waiting m := by
  induction r using Reached.threadInduction generalizing after with
  | fresh => simp at hv
  | idle _ _ threads _ ih => rw [threads]; exact ih hv open'
  | @start _ e now r ih =>
    intro t ht same
    rcases e.start_cases now with ⟨threads, _⟩ | ⟨p, _, threads, _⟩
    · exact ih hv open' t (threads ▸ ht) same
    · rw [threads] at ht
      obtain ⟨s, _, k, low, _, rfl⟩ := Engine.mem_startThreads ht
      have old : v.thread.id < e.nextThreadId := r.visited_lt (by simp [hv])
      change k = v.thread.id at same
      omega
  | stop => intro t ht; cases ht
  | prune _ ih => intro t ht; exact ih hv open' t (List.mem_of_mem_filter ht)
  | step w due r ih =>
    intro t ht same
    rcases List.eq_nil_or_concat after with rfl | ⟨rest, u, rfl⟩
    · -- the step is the one that begins the broadcast
      obtain rfl := (List.cons.inj (List.append_inj' hv rfl).2).1
      rcases due.mem_after r.ordered ht with rfl | ⟨_, other⟩ | ⟨_, new, _⟩
      · exact (c.first due).2.2.2 heard
      · exact absurd same other
      · have := r.ordered.bounded _ due.mem
        omega
    · rw [List.concat_eq_append, ← List.cons_append, ← List.append_assoc] at hv
      obtain ⟨past, last⟩ := List.append_inj' hv rfl
      obtain rfl := (List.cons.inj last).1
      have earlier : v.Unanswered m rest := fun x hx => open' x (by simp [hx])
      have waits := ih past earlier
      rcases due.mem_after r.ordered ht with rfl | ⟨old, _⟩ | ⟨_, new, _⟩
      · rw [w.stepped_id] at same
        have live := open' w (by simp) same
        exact (c.later due (waits _ due.mem same)).2.1 live
      · exact waits t old same
      · have : v.thread.id < w.engine.nextThreadId := r.visited_lt (by simp [past])
        omega

/-- Every thread that waits has begun a broadcast that is not answered yet. -/
theorem traced (r : Reached l Loads h e) {t : Thread} (ht : t ∈ e.threads) {ids : List Nat}
    (waits : t.waitingOn = some ids) :
    ∃ before v after m, h = before ++ v :: after ∧ v.Calls m ∧ v.engine.called m ≠ [] ∧
      v.Unanswered m after ∧ t = v.waiting m := by
  induction r using Reached.threadInduction generalizing t ids with
  | fresh => cases ht
  | idle _ _ threads _ ih => exact ih (threads ▸ ht) waits
  | @start _ e now _ ih =>
    rcases e.start_cases now with ⟨threads, _⟩ | ⟨p, _, threads, _⟩
    · exact ih (threads ▸ ht) waits
    · rw [threads] at ht
      obtain ⟨s, _, k, _, _, rfl⟩ := Engine.mem_startThreads ht
      cases waits
  | stop => cases ht
  | prune _ ih => exact ih (List.mem_of_mem_filter ht) waits
  | @step h w due r ih =>
    rcases due.mem_after r.ordered ht with rfl | ⟨old, other⟩ | ⟨idle, _⟩
    · cases found : w.thread.waitingOn with
      | none =>
        obtain ⟨id, m, cur, heard, _⟩ := w.effect.called_of_waits found waits
        have c : w.Calls m := ⟨⟨id, cur⟩, found⟩
        exact ⟨h, w, [], m, rfl, c, heard, by simp [Visit.Unanswered], (c.first due).2.2.2 heard⟩
      | some ids' =>
        obtain ⟨before, v, after, m, hv, c, heard, open', same⟩ := ih due.mem found
        have later := c.later due same
        cases live : v.blocked m w.engine with
        | true =>
          refine ⟨before, v, after ++ [w], m, by simp [hv], c, heard, ?_, later.2.1 live⟩
          exact open'.snoc fun _ => live
        | false =>
          rw [later.2.2 live, Thread.advance_waitingOn, c.idle] at waits
          cases waits
    · obtain ⟨before, v, after, m, hv, c, heard, open', rfl⟩ := ih old waits
      refine ⟨before, v, after ++ [w], m, by simp [hv], c, heard, ?_, rfl⟩
      exact open'.snoc fun same => absurd same.symm other
    · rw [idle] at waits; cases waits

end Reached

/-- What becomes of a broadcast of `m` that is waited for and that step `v` begins, in a run that
takes the steps `after` from then on and comes to the engine `e`. -/
structure Visit.Answered (v : Visit) (m : Expr) (after : List Visit) (e : Engine) : Prop where
  started : v.after.threads = v.engine.threads.set v.position v.stepped ++
    List.zipWith (fun id s => Thread.start id s v.engine.tickCount) (v.spawned m)
      (v.engine.called m)
  numbered : v.after.nextThreadId = v.engine.nextThreadId + (v.engine.called m).length
  unheard : v.engine.called m = [] → v.thread.Passes v.stepped
  waits : v.engine.called m ≠ [] → v.stepped = v.waiting m
  stays : v.engine.called m ≠ [] → ∀ mid w rest, after = mid ++ w :: rest → v.Unanswered m mid →
    ∀ t ∈ w.engine.threads, t.id = v.thread.id → t = v.waiting m
  polled : v.engine.called m ≠ [] → ∀ mid w rest, after = mid ++ w :: rest → v.Unanswered m mid →
    w.thread.id = v.thread.id → v.blocked m w.engine = true →
      w.stepped = v.waiting m ∧ w.Spawnless
  resumed : v.engine.called m ≠ [] → ∀ mid w rest, after = mid ++ w :: rest →
    v.Unanswered m mid → w.thread.id = v.thread.id → v.blocked m w.engine = false →
      v.thread.Passes w.stepped ∧ w.Spawnless
  unanswered : v.engine.called m ≠ [] → v.Unanswered m after →
    ∀ t ∈ e.threads, t.id = v.thread.id → t = v.waiting m

theorem Reached.answered {l : Limits} {Loads : Program → Prop} {before after : List Visit}
    {v : Visit} {e : Engine} {m : Expr} (r : Reached l Loads (before ++ v :: after) e)
    (c : v.Calls m) : v.Answered m after e := by
  have due := (r.earlier rfl).2
  obtain ⟨started, numbered, unheard, waits⟩ := c.first due
  have stays : v.engine.called m ≠ [] → ∀ mid w rest, after = mid ++ w :: rest →
      v.Unanswered m mid → w.Due ∧ ∀ t ∈ w.engine.threads, t.id = v.thread.id →
        t = v.waiting m := by
    rintro heard mid w rest rfl open'
    obtain ⟨here, due'⟩ := r.earlier (List.append_assoc before (v :: mid) (w :: rest)).symm
    exact ⟨due', here.held rfl c heard open'⟩
  refine ⟨started, numbered, ?_, waits, ?_, ?_, ?_, ?_⟩
  · intro none
    rw [unheard none]
    exact c.passes
  · intro heard mid w rest split open'
    exact (stays heard mid w rest split open').2
  · intro heard mid w rest split open' same live
    obtain ⟨due', waiting⟩ := stays heard mid w rest split open'
    have later := c.later due' (waiting _ due'.mem same)
    exact ⟨later.2.1 live, later.1⟩
  · intro heard mid w rest split open' same done
    obtain ⟨due', waiting⟩ := stays heard mid w rest split open'
    have later := c.later due' (waiting _ due'.mem same)
    rw [later.2.2 done]
    exact ⟨c.passes, later.1⟩
  · intro heard open'
    exact r.held rfl c heard open'

/-- In every run, every broadcast that is waited for starts its handlers exactly once and holds its
thread until they are finished; and every thread that waits between operations does so because of
such a broadcast, for at least one handler. -/
theorem broadcast_wait_exactly_once (l : Limits) (ops : List Engine.Operation) :
    let e := ({ limits := l } : Engine).performAll ops
    let h := ({ limits := l } : Engine).history ops
    (∀ before v after m, h = before ++ v :: after → v.Calls m → v.Answered m after e) ∧
    ∀ t ∈ e.threads, ∀ ids, t.waitingOn = some ids → ids ≠ [] ∧
      ∃ before v after m, h = before ++ v :: after ∧ v.Calls m ∧ v.Unanswered m after ∧
        t = v.waiting m := by
  intro e h
  have reached := Reached.run l ops
  refine ⟨?_, ?_⟩
  · intro before v after m split c
    change Reached l _ h e at reached
    rw [split] at reached
    exact reached.answered c
  · intro t ht ids waits
    obtain ⟨before, v, after, m, split, c, heard, open', rfl⟩ := reached.traced ht waits
    refine ⟨?_, before, v, after, m, split, c, open', rfl⟩
    obtain rfl := Option.some.inj waits
    simpa [Visit.spawned, Engine.freshIds] using heard

/-- A script that calls two handlers and waits for them; the second one has nothing to do. -/
def Program.greeting : Program where
  scripts := [⟨"main", [.simple "call" (.broadcast (.str "go") true)]⟩]
  handlers := .ofList [("go", [⟨"long", [.simple "greet" .unsupported]⟩, ⟨"short", []⟩])]

theorem broadcast_wait_exactly_once_greeting :
    let ops : List Engine.Operation :=
      [.load .greeting, .bind {}, .start 0, .tick 16000000, .tick 32000000]
    let go : Expr := .str "go"
    ∃ v mid w rest, ({} : Engine).history ops = v :: (mid ++ w :: rest) ∧ v.Calls go ∧
      v.spawned go = [2, 3] ∧ v.Answered go (mid ++ w :: rest) (({} : Engine).performAll ops) ∧
      mid.map (fun u => u.thread.id) = [1, 2, 3, 1, 2] ∧ v.Unanswered go mid ∧
      w.thread.id = 1 ∧ v.thread.Passes w.stepped := by
  intro ops go
  obtain ⟨v, mid, w, rest, split, calls, spawned, heard, ids, open', first, own, done⟩ :
      ∃ v mid w rest, ({} : Engine).history ops = v :: (mid ++ w :: rest) ∧ v.Calls go ∧
        v.spawned go = [2, 3] ∧ v.engine.called go ≠ [] ∧
        mid.map (fun u => u.thread.id) = [1, 2, 3, 1, 2] ∧ v.Unanswered go mid ∧
        w.thread.id = 1 ∧ w.thread.id = v.thread.id ∧ v.blocked go w.engine = false := by
    refine ⟨_, [_, _, _, _, _], _, _, rfl, ⟨⟨"call", rfl⟩, rfl⟩, rfl, ?_, rfl, ?_, rfl, rfl, ?_⟩
    · decide +kernel
    · unfold Visit.Unanswered
      decide +kernel
    · decide +kernel
  have answered := (broadcast_wait_exactly_once {} ops).1 [] v (mid ++ w :: rest) go split calls
  have passes := (answered.resumed heard mid w rest rfl open' own done).1
  exact ⟨v, mid, w, rest, split, calls, spawned, answered, ids, open', first, passes⟩

end BlockStage
