import BlockStage.Proofs.Independence.Schedule
import BlockStage.Proofs.Polling
import BlockStage.Proofs.RoundRobin

/-! # Timed actions

A tick steps a thread as often as there are passes. What a step leaves in flight stays as it is for
the rest of the tick, so a timed action counts ticks: what has elapsed is the sum of their times
from the left, and the tick that makes it reach the duration completes the action.
-/
namespace BlockStage

open Decimal (Unsigned)

/-! ## Inside of a tick -/

section Course

open Engine (Course Ends Taken)

variable {l : Limits} {Loads : Program → Prop} {h vs before after : List Visit} {e e₀ : Engine}
variable {t : Thread} {v w : Visit} {b : Action}

theorem split_snoc (parts : vs ++ [w] = before ++ v :: after) :
    (after = [] ∧ vs = before ∧ w = v) ∨
      ∃ rest, after = rest ++ [w] ∧ vs = before ++ v :: rest := by
  rcases List.eq_nil_or_concat after with rfl | ⟨rest, u, rfl⟩
  · obtain ⟨rfl, last⟩ := List.append_inj' parts rfl
    exact Or.inl ⟨rfl, rfl, (List.cons.inj last).1⟩
  · rw [List.concat_eq_append, ← List.cons_append, ← List.append_assoc] at parts
    obtain ⟨rfl, last⟩ := List.append_inj' parts rfl
    obtain rfl := (List.cons.inj last).1
    exact Or.inr ⟨rest, List.concat_eq_append, rfl⟩

theorem Engine.Course.taken (course : Course e₀ vs e) (parts : vs = before ++ v :: after) :
    ∃ e', Course e₀ before e' ∧ Taken e₀ before e' v := by
  induction course generalizing after with
  | begun => simp at parts
  | pruned _ _ ih => exact ih parts
  | stepped taken _ course ih =>
    rcases split_snoc parts with ⟨rfl, rfl, rfl⟩ | ⟨rest, rfl, rfl⟩
    · exact ⟨_, course, taken⟩
    · exact ih rfl

theorem Engine.Ends.taken_behind (ends : Ends e₀ vs e) (parts : vs = before ++ v :: after) :
    ∃ e', Course e₀ before e' ∧ Taken e₀ before e' v := by
  cases ends with
  | going course | finished _ course | exceeded _ _ _ _ _ course => exact course.taken parts
  | halted taken _ course =>
    rcases split_snoc parts with ⟨rfl, rfl, rfl⟩ | ⟨rest, rfl, rfl⟩
    · exact ⟨_, course, taken⟩
    · exact course.taken rfl

theorem Reached.course (r : Reached l Loads h e₀) (course : Course e₀ vs e) :
    Reached l Loads (h ++ vs) e := by
  induction course with
  | begun => simpa using r
  | pruned _ _ ih => exact ih.prune
  | @stepped vs e v taken _ _ ih =>
    have here : Reached l Loads (h ++ vs) v.engine := taken.counted ▸ ih.count
    rw [← List.append_assoc]
    exact .step v taken.due here

theorem Reached.taken (r : Reached l Loads h e₀) (course : Course e₀ vs e)
    (taken : Taken e₀ vs e v) : Reached l Loads (h ++ vs) v.engine :=
  taken.counted ▸ (r.course course).count

theorem Engine.Course.tickCount (course : Course e₀ vs e) : e.tickCount = e₀.tickCount := by
  obtain ⟨_, _, _, _, _, rfl⟩ := course.frame
  rfl

theorem Engine.Taken.tickCount (taken : Taken e₀ vs e v) (course : Course e₀ vs e) :
    v.engine.tickCount = e₀.tickCount := by
  rw [taken.counted]
  exact course.tickCount

theorem Engine.Ordered.eq_of_id (ordered : e.Ordered) {u : Thread} (ht : t ∈ e.threads)
    (hu : u ∈ e.threads) (same : t.id = u.id) : t = u := by
  obtain ⟨i, hi⟩ := List.mem_iff_getElem?.mp ht
  obtain ⟨j, hj⟩ := List.mem_iff_getElem?.mp hu
  obtain rfl := ordered.position_unique hi hj same
  exact Option.some.inj (hi.symm.trans hj)

theorem Visit.Due.stepped_mem (due : v.Due) (runs : v.after.running = true) :
    v.stepped ∈ v.after.threads := by
  obtain ⟨e, scripts, _, _, after⟩ := due.after_of_running runs
  rw [after]
  exact List.mem_append_left _ due.mem_set_self

theorem Visit.Due.mem_of_other (due : v.Due) (runs : v.after.running = true)
    (ht : t ∈ v.engine.threads) (other : t.id ≠ v.thread.id) : t ∈ v.after.threads := by
  obtain ⟨e, scripts, _, _, after⟩ := due.after_of_running runs
  rw [after]
  exact List.mem_append_left _ (due.mem_set_of_ne ht other)

theorem Engine.Taken.mem_iff (taken : Taken e₀ vs e v) : t ∈ v.engine.threads ↔ t ∈ e.threads := by
  rw [taken.counted]
  rfl

theorem Engine.Course.untouched (course : Course e₀ vs e) (ht : t ∈ e₀.threads)
    (unfinished : t.finished = false) (unstepped : turns vs t.id = 0) : t ∈ e.threads := by
  induction course with
  | begun => exact ht
  | pruned _ _ ih => exact Engine.mem_liveThreads.mpr ⟨ih unstepped, unfinished⟩
  | @stepped vs e v taken runs _ ih =>
    unfold turns at unstepped ih
    rw [List.countP_append, Nat.add_eq_zero_iff] at unstepped
    have other : t.id ≠ v.thread.id := by
      intro same
      have := List.countP_eq_zero.mp unstepped.2 v (List.mem_singleton_self v)
      simp [same] at this
    exact taken.due.mem_of_other runs (taken.mem_iff.mpr (ih unstepped.1)) other

theorem Reached.settled (r : Reached l Loads h e₀) (course : Course e₀ vs e) :
    ∀ t ∈ e.threads, 0 < turns vs t.id → t.Settled e₀.tickCount := by
  induction course with
  | begun =>
    intro t _ some
    cases some
  | pruned _ _ ih => exact fun t ht => ih t (List.mem_of_mem_filter ht)
  | @stepped vs e v taken runs course ih =>
    intro t ht some
    have here := r.taken course taken
    obtain ⟨j, listed⟩ := List.mem_iff_getElem?.mp ht
    rcases taken.due.listed_after runs listed with ⟨_, rfl⟩ | ⟨other, old⟩ | ⟨_, _, _, idle⟩
    · rw [← taken.tickCount course]
      exact taken.due.stepped_settled (here.controlled.threads _ taken.due.mem)
    · have apart : v.thread.id ≠ t.id :=
        fun same => other (here.ordered.position_unique taken.due.listed old same).symm
      apply ih t (taken.mem_iff.mp (List.mem_of_getElem? old))
      simpa [turns, List.countP_append, apart] using some
    · exact .of_idle idle

theorem Reached.settled_at (r : Reached l Loads h e₀) (course : Course e₀ vs e)
    (taken : Taken e₀ vs e w) (hv : v ∈ vs) (own : w.thread.id = v.thread.id) :
    w.thread.Settled w.engine.tickCount := by
  rw [taken.tickCount course]
  apply r.settled course _ (taken.mem_iff.mp taken.due.mem)
  rw [own]
  exact List.countP_pos_iff.mpr ⟨v, hv, by simp⟩

theorem Reached.not_completes (r : Reached l Loads h e₀) (ends : Ends e₀ vs e)
    (parts : vs = before ++ w :: after) (hv : v ∈ before) (own : w.thread.id = v.thread.id)
    (positive : 0 < b.duration) : ¬ w.Completes b := by
  obtain ⟨e', course, taken⟩ := ends.taken_behind parts
  have controlled := (r.taken course taken).controlled.threads _ taken.due.mem
  exact (r.settled_at course taken hv own).not_completes taken.due controlled positive

theorem Reached.polled (r : Reached l Loads h e₀) (course : Course e₀ vs e)
    (taken : Taken e₀ vs e w) (hv : v ∈ vs) (own : w.thread.id = v.thread.id)
    (flying : v.stepped.action = some b) (there : v.stepped ∈ e.threads) :
    w.progress = false ∧ w.stepped = v.stepped := by
  have here := r.taken course taken
  have thread : w.thread = v.stepped :=
    here.ordered.eq_of_id taken.due.mem (taken.mem_iff.mpr there) (own.trans v.stepped_id.symm)
  obtain ⟨progress, kept⟩ := (r.settled_at course taken hv own).polled taken.due
    (here.controlled.threads _ taken.due.mem) (thread ▸ flying)
  exact ⟨progress, kept.trans thread⟩

theorem Reached.stays_in_flight (r : Reached l Loads h e₀) (course : Course e₀ vs e)
    (parts : vs = before ++ v :: after) (unfinished : v.stepped.finished = false)
    (flying : v.stepped.action = some b) : v.stepped ∈ e.threads := by
  induction course generalizing after with
  | begun => simp at parts
  | pruned _ _ ih => exact Engine.mem_liveThreads.mpr ⟨ih parts, unfinished⟩
  | @stepped vs e w taken runs course ih =>
    rcases split_snoc parts with ⟨rfl, rfl, rfl⟩ | ⟨rest, rfl, rfl⟩
    · exact taken.due.stepped_mem runs
    · have there := ih rfl
      by_cases own : w.thread.id = v.thread.id
      · obtain ⟨_, kept⟩ := r.polled course taken (by simp) own flying there
        rw [← kept]
        exact taken.due.stepped_mem runs
      · apply taken.due.mem_of_other runs (taken.mem_iff.mpr there)
        rw [v.stepped_id]
        exact fun same => own same.symm

theorem Reached.no_progress (r : Reached l Loads h e₀) (ends : Ends e₀ vs e)
    (parts : vs = before ++ v :: after) (unfinished : v.stepped.finished = false)
    (flying : v.stepped.action = some b) :
    ∀ w ∈ after, w.thread.id = v.thread.id → w.progress = false := by
  intro w hw own
  obtain ⟨rest, rest', rfl⟩ := List.append_of_mem hw
  rw [← List.cons_append, ← List.append_assoc] at parts
  obtain ⟨e', course, taken⟩ := ends.taken_behind parts
  exact (r.polled course taken (by simp) own flying
    (r.stays_in_flight course rfl unfinished flying)).1

end Course

/-! ## From tick to tick -/

/-- The thread at a point of an action to which the given tick has been added last. -/
def Thread.flying (t : Thread) (a : Action) (elapsed : Float) (tick : Nat) : Thread :=
  { t with action := some { a with elapsed := elapsed, advancedAt := tick } }

@[simp] theorem Thread.flying_id (t : Thread) (a : Action) (elapsed : Float) (tick : Nat) :
    (t.flying a elapsed tick).id = t.id := rfl

/-- The sum of times, from left to right. -/
def total (times : List Float) : Float := times.foldl (· + ·) 0

namespace Engine

/-- The times that the ticks among the operations count. -/
def deltas (e : Engine) : List Operation → List Float
  | [] => []
  | .tick now :: ops => e.delta now :: (e.perform (.tick now)).deltas ops
  | op :: ops => (e.perform op).deltas ops

/-- What ends the threads of a run or keeps some of them from their turns: stops, starts, ticks that
end the run and ticks with fewer steps than threads. -/
def disturbs (e : Engine) : Operation → Bool
  | .load _ | .bind _ => false
  | .start _ => e.ready
  | .stop => true
  | .tick now =>
    (e.tick now).2 != .continued || decide (e.limits.maxStepsPerTick < e.liveThreads.length)

/-- The tick breaks no thread off: the run goes on, or behind the last step all threads had
finished. -/
def Unbroken (e : Engine) (now : Nat) : Prop :=
  let behind := (e.beginTick now).behind (e.visits (.tick now))
  (e.tick now).2 = .continued ∨ behind.running = true ∧ behind.liveThreads = []

end Engine

section Flight

open Engine (Course Ends Taken)

variable {l : Limits} {Loads : Program → Prop} {h before after : List Visit} {e : Engine}
variable {now : Nat} {t : Thread} {a : Action} {x : Float} {w : Visit}

theorem exists_first {vs : List Visit} {id : Nat} (some : 0 < turns vs id) :
    ∃ before w after, vs = before ++ w :: after ∧ turns before id = 0 ∧ w.thread.id = id := by
  induction vs with
  | nil => cases some
  | cons v vs ih =>
    by_cases own : v.thread.id = id
    · exact ⟨[], v, vs, rfl, rfl, own⟩
    · rw [turns_cons_ne own] at some
      obtain ⟨before, w, after, rfl, none, own'⟩ := ih some
      exact ⟨v :: before, w, after, rfl, by rwa [turns_cons_ne own], own'⟩

theorem Engine.ends_of_parts (parts : e.visits (.tick now) = before ++ w :: after) :
    ∃ e', Ends (e.beginTick now) (e.visits (.tick now)) e' := by
  rcases e.tick_cases now with ⟨_, none, _⟩ | ⟨_, e', ends, _⟩
  · rw [none] at parts
    simp at parts
  · exact ⟨e', ends⟩

theorem Reached.first_step (r : Reached l Loads h e) (ht : t ∈ e.threads)
    (unfinished : t.finished = false) (parts : e.visits (.tick now) = before ++ w :: after)
    (first : turns before t.id = 0) (own : w.thread.id = t.id) :
    w.thread = t ∧ w.Due ∧ w.engine.tickCount = e.tickCount + 1 ∧
      w.thread.Controlled (RootOf Loads) w.engine.tickCount := by
  obtain ⟨e', ends⟩ := Engine.ends_of_parts parts
  obtain ⟨e'', course, taken⟩ := ends.taken_behind parts
  have here := (r.beginTick now).taken course taken
  have there : t ∈ e''.threads :=
    course.untouched (by simpa using ht) unfinished first
  have thread := here.ordered.eq_of_id taken.due.mem (taken.mem_iff.mpr there) own
  refine ⟨thread, taken.due, ?_, here.controlled.threads _ taken.due.mem⟩
  rw [taken.tickCount course, Engine.beginTick_tickCount]

theorem Reached.flight_step (r : Reached l Loads h e) (lasting : a.Lasting) (unsigned : Unsigned x)
    (ht : t.flying a x e.tickCount ∈ e.threads) (unfinished : t.finished = false)
    (parts : e.visits (.tick now) = before ++ w :: after) (first : turns before t.id = 0)
    (own : w.thread.id = t.id) :
    w.thread = t.flying a x e.tickCount ∧
    w.action? = some { a with elapsed := x, advancedAt := e.tickCount } ∧
    (1 ≤ (x + e.delta now) / a.duration ∧ w.progress = true ∧
        w.stepped = { t with action := none }.advance ∨
      ¬ 1 ≤ (x + e.delta now) / a.duration ∧ w.progress = false ∧
        w.stepped = t.flying a (x + e.delta now) (e.tickCount + 1)) := by
  obtain ⟨thread, due, tick, controlled⟩ := r.first_step ht unfinished parts first own
  have time : w.dt = e.delta now := Engine.visits_dt (by rw [parts]; simp)
  have acts : w.action? = some { a with elapsed := x, advancedAt := e.tickCount } :=
    controlled.in_flight (by rw [thread]; rfl)
  refine ⟨thread, acts, ?_⟩
  let b : Action := { a with elapsed := x + e.delta now, advancedAt := e.tickCount + 1 }
  have added : Action.advance { a with elapsed := x, advancedAt := e.tickCount }
      w.engine.tickCount w.dt = b := by
    rw [tick, time, Action.advance_of_ne (Nat.ne_of_lt (Nat.lt_succ_self _))]
  have later : Unsigned b.elapsed := unsigned.add (Time.seconds_unsigned _)
  have done := Action.Lasting.done_iff (a := b) ⟨lasting.positive, lasting.finite⟩ later
  have cases := due.step_action acts
  rw [added, done, thread] at cases
  exact cases

theorem Engine.course_of_continued (continued : (e.tick now).2 = .continued) :
    ∃ e', Course (e.beginTick now) (e.visits (.tick now)) e' ∧
      (e.tick now).1 = { e' with pending := true } := by
  rcases e.tick_cases now with ⟨_, _, idle⟩ | ⟨_, e', ends, ⟨runs, same⟩ | ⟨_, same⟩⟩
  · rw [idle] at continued
    cases continued
  · exact ⟨e', ends.course runs, by rw [same]⟩
  · rw [same] at continued
    cases continued

theorem Engine.tickCount_of_continued (continued : (e.tick now).2 = .continued) :
    (e.tick now).1.tickCount = e.tickCount + 1 := by
  obtain ⟨e', course, same⟩ := Engine.course_of_continued continued
  rw [same]
  exact course.tickCount.trans (e.beginTick_tickCount now)

theorem Reached.still_in_flight (r : Reached l Loads h e) (continued : (e.tick now).2 = .continued)
    (parts : e.visits (.tick now) = before ++ w :: after) (unfinished : w.stepped.finished = false)
    (flying : w.stepped.action = some a) : w.stepped ∈ (e.tick now).1.threads := by
  obtain ⟨e', course, same⟩ := Engine.course_of_continued continued
  have there : w.stepped ∈ e'.threads :=
    (r.beginTick now).stays_in_flight course parts unfinished flying
  rw [same]
  exact there

/-- A tick that gives every thread a turn adds its time to an action in flight that it does not
complete. -/
theorem Reached.flight_tick (r : Reached l Loads h e) (lasting : a.Lasting) (unsigned : Unsigned x)
    (ht : t.flying a x e.tickCount ∈ e.threads) (unfinished : t.finished = false)
    (continued : (e.tick now).2 = .continued)
    (enough : e.liveThreads.length ≤ e.limits.maxStepsPerTick)
    (undone : ¬ 1 ≤ (x + e.delta now) / a.duration) :
    t.flying a (x + e.delta now) (e.tick now).1.tickCount ∈ (e.tick now).1.threads ∧
      ∀ w ∈ e.visits (.tick now), w.thread.id = t.id → w.progress = false := by
  have live := Engine.mem_liveThreads.mpr ⟨ht, unfinished⟩
  obtain ⟨before, w, after, parts, first, own⟩ :=
    exists_first (r.stepped continued enough _ live)
  obtain ⟨_, _, ⟨done, _⟩ | ⟨_, progress, stepped⟩⟩ :=
    r.flight_step lasting unsigned ht unfinished parts first own
  · exact absurd done undone
  have open' : w.stepped.finished = false := by rw [stepped]; exact unfinished
  have flying : w.stepped.action =
      some { a with elapsed := x + e.delta now, advancedAt := e.tickCount + 1 } := by
    rw [stepped]
    rfl
  constructor
  · rw [Engine.tickCount_of_continued continued, ← stepped]
    exact r.still_in_flight continued parts open' flying
  · obtain ⟨e', ends⟩ := Engine.ends_of_parts parts
    intro u hu mine
    rw [parts] at hu
    rcases List.mem_append.mp hu with earlier | later
    · exact absurd (by simpa using mine) (List.countP_eq_zero.mp first u earlier)
    · rcases List.mem_cons.mp later with rfl | behind
      · exact progress
      · exact (r.beginTick now).no_progress ends parts open' flying u behind
          (mine.trans own.symm)

theorem Engine.Ends.course_of_behind {e₀ : Engine} {vs : List Visit} (ends : Ends e₀ vs e)
    (running : (e₀.behind vs).running = true) : ∃ e', Course e₀ vs e' := by
  cases ends with
  | going course | finished _ course | exceeded _ _ _ _ _ course => exact ⟨_, course⟩
  | halted _ stops =>
    rw [Engine.behind_snoc, stops] at running
    cases running

theorem Reached.stepped_unbroken (r : Reached l Loads h e) (unbroken : e.Unbroken now)
    (enough : e.liveThreads.length ≤ e.limits.maxStepsPerTick) (ht : t ∈ e.threads)
    (unfinished : t.finished = false) : 0 < turns (e.visits (.tick now)) t.id := by
  rcases unbroken with continued | ⟨running, none⟩
  · exact r.stepped continued enough t (Engine.mem_liveThreads.mpr ⟨ht, unfinished⟩)
  · by_contra unstepped
    have unstepped := Nat.eq_zero_of_not_pos unstepped
    have begun : t ∈ (e.beginTick now).threads := by simpa using ht
    obtain ⟨e', course⟩ : ∃ e', Course (e.beginTick now) (e.visits (.tick now)) e' := by
      rcases e.tick_cases now with ⟨_, empty, _⟩ | ⟨_, e', ends, _⟩
      · rw [empty]
        exact ⟨_, .begun⟩
      · exact ends.course_of_behind running
    have there := course.untouched begun unfinished unstepped
    obtain ⟨threads, sub, rfl⟩ := course.since_step
    have live := Engine.mem_liveThreads.mpr ⟨sub.subset there, unfinished⟩
    rw [none] at live
    cases live

theorem Engine.perform_of_undisturbed {op : Operation} (undisturbed : e.disturbs op = false)
    (other : ∀ now, op ≠ .tick now) :
    (e.perform op).threads = e.threads ∧ (e.perform op).tickCount = e.tickCount := by
  cases op with
  | load | bind => exact ⟨rfl, rfl⟩
  | start now =>
    obtain ⟨line, same⟩ := Engine.start_of_not_ready undisturbed now
    rw [perform, same]
    exact ⟨rfl, rfl⟩
  | stop => cases undisturbed
  | tick now => exact absurd rfl (other now)

theorem Engine.deltas_of_other {op : Operation} (other : ∀ now, op ≠ .tick now)
    (ops : List Operation) : e.deltas (op :: ops) = (e.perform op).deltas ops := by
  cases op with
  | tick now => exact absurd rfl (other now)
  | _ => rfl

theorem Engine.visits_of_other {op : Operation} (other : ∀ now, op ≠ .tick now) :
    e.visits op = [] := by
  cases op with
  | tick now => exact absurd rfl (other now)
  | _ => rfl

theorem Reached.flight (r : Reached l Loads h e) (lasting : a.Lasting) (unsigned : Unsigned x)
    (ht : t.flying a x e.tickCount ∈ e.threads) (unfinished : t.finished = false)
    {ops : List Engine.Operation} (loads : ∀ p, .load p ∈ ops → Loads p)
    (undisturbed : Engine.Never Engine.disturbs e ops)
    (undone : ∀ ds, ds <+: e.deltas ops → ¬ 1 ≤ ds.foldl (· + ·) x / a.duration) :
    Unsigned ((e.deltas ops).foldl (· + ·) x) ∧
    t.flying a ((e.deltas ops).foldl (· + ·) x) (e.performAll ops).tickCount ∈
      (e.performAll ops).threads ∧
    ∀ w ∈ e.history ops, w.thread.id = t.id → w.progress = false := by
  induction ops generalizing h e x with
  | nil => exact ⟨unsigned, ht, fun w hw => by cases hw⟩
  | cons op ops ih =>
    obtain ⟨first, rest⟩ := undisturbed
    have next := r.perform op fun p hp => loads p (by simp [hp])
    have loads' : ∀ p, .load p ∈ ops → Loads p := fun p hp => loads p (List.mem_cons_of_mem _ hp)
    by_cases ticks : ∃ now, op = .tick now
    · obtain ⟨now, rfl⟩ := ticks
      simp only [Engine.disturbs, Bool.or_eq_false_iff, decide_eq_false_iff_not, Nat.not_lt,
        bne_eq_false_iff_eq] at first
      have step : ¬ 1 ≤ (x + e.delta now) / a.duration :=
        undone [e.delta now] (by simp [Engine.deltas])
      obtain ⟨flying, still⟩ := r.flight_tick lasting unsigned ht unfinished first.1 first.2 step
      obtain ⟨unsigned', flying', still'⟩ := ih next (unsigned.add (Time.seconds_unsigned _))
        flying loads' rest fun ds sub => undone (e.delta now :: ds)
          (by simpa [Engine.deltas, Engine.perform] using sub)
      refine ⟨unsigned', flying', fun w hw own => ?_⟩
      rcases List.mem_append.mp hw with now | later
      · exact still w now own
      · exact still' w later own
    · have other : ∀ now, op ≠ .tick now := fun now same => ticks ⟨now, same⟩
      obtain ⟨threads, tick⟩ := Engine.perform_of_undisturbed first other
      rw [Engine.deltas_of_other other] at undone ⊢
      obtain ⟨unsigned', flying', still'⟩ := ih next unsigned
        (by rw [threads, tick]; exact ht) loads' rest undone
      refine ⟨unsigned', flying', fun w hw own => ?_⟩
      rw [Engine.history, Engine.visits_of_other other] at hw
      exact still' w hw own

end Flight

/-! ## Runs -/

/-- An action of the thread `t` that is in flight behind the given operations, with the times of
their ticks added up, and that is completed by the first tick that makes the sum reach the
duration. -/
structure Engine.Carries (e : Engine) (t : Thread) (a : Action) (ops : List Operation) : Prop where
  pending : ∀ w ∈ e.history ops, w.thread.id = t.id → w.progress = false
  flying : t.flying a (total (e.deltas ops)) (e.performAll ops).tickCount ∈
    (e.performAll ops).threads
  completes : ∀ now, (e.performAll ops).liveThreads.length ≤
      (e.performAll ops).limits.maxStepsPerTick →
    (e.performAll ops).Unbroken now →
    1 ≤ total (e.deltas ops ++ [(e.performAll ops).delta now]) / a.duration →
    ∃ before w after, (e.performAll ops).visits (.tick now) = before ++ w :: after ∧
      turns before t.id = 0 ∧
      w.thread = t.flying a (total (e.deltas ops)) (e.performAll ops).tickCount ∧
      w.Completes { a with
        elapsed := total (e.deltas ops), advancedAt := (e.performAll ops).tickCount } ∧
      w.stepped = { t with action := none }.advance

theorem Reached.carries {l : Limits} {Loads : Program → Prop} {h : List Visit} {e : Engine}
    {t : Thread} {a : Action} {ops : List Engine.Operation} (r : Reached l Loads h e)
    (lasting : a.Lasting) (ht : t.flying a 0 e.tickCount ∈ e.threads)
    (unfinished : t.finished = false) (loads : ∀ p, .load p ∈ ops → Loads p)
    (undisturbed : Engine.Never Engine.disturbs e ops)
    (undone : ∀ ds, ds <+: e.deltas ops → ¬ 1 ≤ total ds / a.duration) : e.Carries t a ops := by
  obtain ⟨unsigned, flying, pending⟩ :=
    r.flight lasting .zero ht unfinished loads undisturbed undone
  refine ⟨pending, flying, fun now enough unbroken done => ?_⟩
  have there := r.performAll ops loads
  obtain ⟨before, w, after, parts, first, own⟩ :=
    exists_first (there.stepped_unbroken unbroken enough flying unfinished)
  obtain ⟨thread, acts, ⟨_, progress, stepped⟩ | ⟨undone, _⟩⟩ :=
    there.flight_step lasting unsigned flying unfinished parts first own
  · exact ⟨before, w, after, parts, first, thread, ⟨acts, progress⟩, stepped⟩
  · rw [total, List.foldl_append] at done
    exact absurd done undone

/-- The step completes an action of positive duration. -/
def Visit.CompletesLasting (v : Visit) : Prop := ∃ a, 0 < a.duration ∧ v.Completes a

/-- What a tick does with timed actions: each thread completes at most one of positive duration. An
action of positive duration that a step begins is not completed in that tick. If the run goes on, it
is carried on by all operations that do not disturb the threads, until the times of their ticks add
up to its duration. -/
structure Engine.TimesActions (e : Engine) (now : Nat) : Prop where
  once : (e.visits (.tick now)).Pairwise fun v w =>
    v.thread.id = w.thread.id → ¬ (v.CompletesLasting ∧ w.CompletesLasting)
  begun : ∀ before v after a, e.visits (.tick now) = before ++ v :: after → v.Begins a →
    0 < a.duration → ∀ w ∈ v :: after, w.thread.id = v.thread.id → w.progress = false
  carried : ∀ v ∈ e.visits (.tick now), ∀ a, v.Begins a → 0 < a.duration →
    (e.tick now).2 = .continued → ∀ more, Never disturbs (e.tick now).1 more →
    (∀ ds, ds <+: (e.tick now).1.deltas more → ¬ 1 ≤ total ds / a.duration) →
    (e.tick now).1.Carries v.thread a more

section TimesActions

variable {l : Limits} {Loads : Program → Prop} {h : List Visit} {e : Engine} {now : Nat}

theorem Reached.completes_once (r : Reached l Loads h e) (now : Nat) :
    (e.visits (.tick now)).Pairwise fun v w =>
      v.thread.id = w.thread.id → ¬ (v.CompletesLasting ∧ w.CompletesLasting) := by
  apply List.pairwise_iff_forall_sublist.mpr
  rintro v w sub own ⟨_, a, positive, completes⟩
  obtain ⟨front, back, parts, hv, sub⟩ := List.cons_sublist_iff.mp sub
  obtain ⟨middle, after, rfl⟩ := List.append_of_mem (List.singleton_sublist.mp sub)
  rw [← List.append_assoc] at parts
  obtain ⟨e', ends⟩ := Engine.ends_of_parts parts
  exact (r.beginTick now).not_completes ends parts (List.mem_append_left _ hv) own.symm positive
    completes

theorem Visit.Begins.departs {before after : List Visit} {v : Visit} {a : Action}
    (begins : v.Begins a) (parts : e.visits (.tick now) = before ++ v :: after)
    (positive : 0 < a.duration) :
    v.progress = false ∧ v.thread.finished = false ∧
      v.stepped = v.thread.flying a 0 (e.tickCount + 1) := by
  obtain ⟨e', ends⟩ := Engine.ends_of_parts parts
  obtain ⟨e'', course, taken⟩ := ends.taken_behind parts
  obtain ⟨progress, stepped⟩ := begins.cases taken.due positive
  obtain ⟨_, zero, tick⟩ := begins.begun
  rw [taken.tickCount course, Engine.beginTick_tickCount] at tick
  refine ⟨progress, taken.due.unfinished, ?_⟩
  rw [stepped, Thread.flying, ← zero, ← tick]

end TimesActions

/-- In every run, timed actions of positive duration count ticks and not steps: whatever the other
threads do and however often a thread is stepped, the time of a tick is added once, the tick of the
beginning adds nothing, and the first tick with which the sum reaches the duration completes the
action. -/
theorem timed_actions_count_ticks (l : Limits) (ops : List Engine.Operation) (now : Nat) :
    (({ limits := l } : Engine).performAll ops).TimesActions now := by
  have start : Reached l (fun _ => True) [] { limits := l } := .fresh .empty
  have reached := start.performAll ops fun _ _ => trivial
  generalize ({ limits := l } : Engine).performAll ops = e at reached
  refine ⟨reached.completes_once now, ?_, ?_⟩
  · intro before v after a parts begins positive w hw own
    obtain ⟨progress, unfinished, stepped⟩ := begins.departs parts positive
    rcases List.mem_cons.mp hw with rfl | behind
    · exact progress
    · obtain ⟨e', ends⟩ := Engine.ends_of_parts parts
      exact (reached.beginTick now).no_progress ends parts (by rw [stepped]; exact unfinished)
        (by rw [stepped]; rfl) w behind own
  · intro v hv a begins positive continued more undisturbed undone
    obtain ⟨before, after, parts⟩ := List.append_of_mem hv
    obtain ⟨_, unfinished, stepped⟩ := begins.departs parts positive
    have flying : v.thread.flying a 0 (e.tick now).1.tickCount ∈ (e.tick now).1.threads := by
      rw [Engine.tickCount_of_continued continued, ← stepped]
      exact reached.still_in_flight continued parts (by rw [stepped]; exact unfinished)
        (by rw [stepped]; rfl)
    exact (reached.tick now).carries ⟨positive, begins.begun.1⟩ flying unfinished
      (fun _ _ => trivial) undisturbed undone

/-- A wait of a tenth of a second beside an endless loop. -/
def Program.waitBeside : Program where
  scripts := [⟨"a", [.simple "" (.wait (.num 0.1))]⟩, ⟨"b", [.forever "" []]⟩]
  handlers := .empty

/-- The wait begins in the first of three ticks that are 50 ms apart. It is polled three times in
the second one, which counts once, and ends in the third one. -/
theorem timed_actions_count_ticks_waitBeside :
    let e := ({ limits := { maxStepsPerTick := 6 } } : Engine).performAll
      [.load .waitBeside, .bind {}, .start 0]
    ∃ v ∈ e.visits (.tick 50000000), ∃ a, v.Begins a ∧ a.duration = 0.1 ∧
      (e.tick 50000000).1.Carries v.thread a [.tick 100000000] ∧
      turns ((e.tick 50000000).1.visits (.tick 100000000)) v.thread.id = 3 ∧
      ∃ w ∈ ((e.tick 50000000).1.tick 100000000).1.visits (.tick 150000000),
        w.thread.id = v.thread.id ∧ w.progress = true := by
  intro e
  have first : (e.visits (.tick 50000000)).head?.map (fun v =>
      (v.thread.action.isNone, v.action?.map Action.duration, v.thread.id)) =
      some (true, some 0.1, 1) := by decide +kernel
  obtain ⟨v, head, values⟩ := Option.map_eq_some_iff.mp first
  obtain ⟨idle, values⟩ := Prod.mk.inj values
  obtain ⟨begun, number⟩ := Prod.mk.inj values
  obtain ⟨a, acts, duration⟩ := Option.map_eq_some_iff.mp begun
  have hv : v ∈ e.visits (.tick 50000000) := List.mem_of_mem_head? head
  have begins : v.Begins a := ⟨Option.isNone_iff_eq_none.mp idle, acts⟩
  have times : (e.tick 50000000).1.deltas [.tick 100000000] = [0.05] := by decide +kernel
  have undone : ∀ ds, ds <+: (e.tick 50000000).1.deltas [.tick 100000000] →
      ¬ 1 ≤ total ds / a.duration := by
    rw [times, duration]
    intro ds sub
    rcases List.prefix_cons_iff.mp sub with rfl | ⟨rest, rfl, none⟩
    · decide +kernel
    · rw [List.prefix_nil.mp none]
      decide +kernel
  have carries := (timed_actions_count_ticks _ _ 50000000).carried v hv a begins
    (by rw [duration]; decide) (by decide +kernel) [.tick 100000000]
    ⟨by decide +kernel, trivial⟩ undone
  have reaches : 1 ≤ total ((e.tick 50000000).1.deltas [.tick 100000000] ++
      [((e.tick 50000000).1.performAll [.tick 100000000]).delta 150000000]) / a.duration := by
    rw [duration]
    decide +kernel
  obtain ⟨before, w, after, parts, _, thread, ⟨_, progress⟩, _⟩ :=
    carries.completes 150000000 (by decide +kernel) (Or.inl (by decide +kernel)) reaches
  refine ⟨v, hv, a, begins, duration, carries, ?_, w, ?_, by rw [thread]; rfl, progress⟩
  · rw [number]
    decide +kernel
  · change w ∈ ((e.tick 50000000).1.performAll [.tick 100000000]).visits (.tick 150000000)
    rw [parts]
    simp

end BlockStage
