import BlockStage.Proofs.Lifecycle
import BlockStage.Proofs.Variables
import BlockStage.Proofs.Waiting

/-! # Threads keep to themselves

All threads of a run are numbered in the order of their creation, whatever is loaded, started and
stopped in between, so a number names one thread for ever. A step changes the record of its own
thread and of no other. It makes no difference to a step that its thread is taken out of the list
for it.
-/
namespace BlockStage

namespace Thread

/-- What a thread is given when it is created, and keeps. -/
def birth (t : Thread) : Nat × String × Nat := (t.id, t.origin, t.bornTick)

@[simp] theorem advance_birth (t : Thread) : t.advance.birth = t.birth := by
  unfold advance
  split <;> rfl

@[simp] theorem resume_birth (t : Thread) (frames : List Frame) :
    (t.resume frames).birth = t.birth := by
  unfold resume
  split <;> rfl

@[simp] theorem finishBody_birth (t : Thread) : t.finishBody.birth = t.birth := by
  unfold finishBody
  split
  · rfl
  · split
    · simp
    · rfl
    · split
      · rfl
      · simp

end Thread

theorem Engine.Effect.birth_eq {e e' : Engine} {t t' : Thread} {dt : Float} {progress : Bool}
    (h : Effect e t dt e' t' progress) : t'.birth = t.birth := by
  cases h with
  | closed => exact t.finishBody_birth
  | passed | sent | unheard => exact t.advance_birth
  | acted | resumed => exact Thread.advance_birth _
  | broke => exact Thread.resume_birth _ _
  | continued => exact Thread.finishBody_birth _
  | _ => rfl

namespace Visit

variable {v : Visit}

theorem stepped_birth (v : Visit) : v.stepped.birth = v.thread.birth := v.effect.birth_eq

def created (v : Visit) : List Thread := v.after.threads.drop v.engine.threads.length

theorem Due.births_set (due : v.Due) :
    (v.engine.threads.set v.position v.stepped).map Thread.birth =
      v.engine.threads.map Thread.birth := by
  obtain ⟨inside, found⟩ := List.getElem?_eq_some_iff.mp due.listed
  rw [List.map_set, v.stepped_birth, ← found, ← List.map_set, List.set_getElem_self]

theorem Due.creates (due : v.Due) :
    v.after.running = false ∧ v.after.threads = [] ∧ v.created = [] ∧
      v.after.nextThreadId = v.engine.nextThreadId ∨
    v.after.running = true ∧ ∃ scripts, v.Starts scripts ∧ v.after.threads = v.grown scripts ∧
      v.created =
        Engine.startThreads v.engine.tickCount v.engine.nextThreadId scripts ∧
      v.after.nextThreadId = v.engine.nextThreadId + scripts.length := by
  rcases due.after_frame with ⟨stopped, e, quiet, after⟩ | ⟨runs, e, scripts, _, starts, after⟩
  · have none : v.after.threads = [] := by
      rw [after]
      rfl
    refine Or.inl ⟨stopped, none, ?_, ?_⟩
    · rw [created, none, List.drop_nil]
    · rw [after]
      exact quiet.nextThreadId
  · have threads : v.after.threads = v.grown scripts := by rw [after]
    refine Or.inr ⟨runs, scripts, starts, threads, ?_, ?_⟩
    · rw [created, threads, grown, List.drop_append_of_le_length (by simp)]
      simp
    · rw [after]

end Visit

namespace Engine

variable {e : Engine}

/-! ## Numbers -/

def created (e : Engine) : Operation → List Thread
  | .start now => if e.ready then (e.start now).threads else []
  | .tick now => (e.visits (.tick now)).flatMap Visit.created
  | _ => []

/-- All threads that are created by the operations, in the order of their creation. -/
def births (e : Engine) : List Operation → List Thread
  | [] => []
  | op :: ops => e.created op ++ (e.perform op).births ops

/-- The threads `born` so far are numbered from one on, and those in the list are among them, in
the same order. -/
structure Lineage (born : List Thread) (e : Engine) : Prop where
  numbers : born.map Thread.id = List.range' 1 born.length
  next : e.nextThreadId = born.length + 1
  stems : (e.threads.map Thread.birth).Sublist (born.map Thread.birth)

/-- The numbers in the list. -/
structure Numbered (e : Engine) : Prop where
  increasing : (e.threads.map Thread.id).Pairwise (· < ·)
  positive : ∀ t ∈ e.threads, 1 ≤ t.id
  bounded : ∀ t ∈ e.threads, t.id < e.nextThreadId

namespace Lineage

variable {born : List Thread}

theorem numbered (h : e.Lineage born) : e.Numbered := by
  have ids : (e.threads.map Thread.id).Sublist (List.range' 1 born.length) := by
    have kept := h.stems.map Prod.fst
    rw [List.map_map, List.map_map] at kept
    rw [← h.numbers]
    exact kept
  have known : ∀ t ∈ e.threads, 1 ≤ t.id ∧ t.id < 1 + born.length := by
    intro t ht
    exact List.mem_range'_1.mp (ids.subset (List.mem_map_of_mem ht))
  have next := h.next
  refine ⟨List.Pairwise.sublist ids List.pairwise_lt_range', fun t ht => (known t ht).1,
    fun t ht => ?_⟩
  have := (known t ht).2
  omega

/-- Threads go, and no number is given away. -/
theorem shrink {e' : Engine} (h : e.Lineage born)
    (fewer : (e'.threads.map Thread.birth).Sublist (e.threads.map Thread.birth))
    (next : e'.nextThreadId = e.nextThreadId) : e'.Lineage born :=
  ⟨h.numbers, next.trans h.next, fewer.trans h.stems⟩

theorem grow {e' : Engine} {tick : Nat} {scripts : List Script} {kept : List (Nat × String × Nat)}
    (h : e.Lineage born) (old : kept.Sublist (e.threads.map Thread.birth))
    (threads : e'.threads.map Thread.birth =
      kept ++ (startThreads tick e.nextThreadId scripts).map Thread.birth)
    (next : e'.nextThreadId = e.nextThreadId + scripts.length) :
    e'.Lineage (born ++ startThreads tick e.nextThreadId scripts) := by
  have ids := startThreads_ids tick e.nextThreadId scripts
  generalize startThreads tick e.nextThreadId scripts = fresh at ids threads ⊢
  have count : fresh.length = scripts.length := by simpa using congrArg List.length ids
  constructor
  · rw [List.map_append, h.numbers, ids, h.next, List.length_append, count,
      Nat.add_comm born.length 1, List.range'_append_1]
  · rw [next, h.next, List.length_append, count]
    omega
  · rw [threads, List.map_append]
    exact (old.trans h.stems).append (.refl _)

theorem after {v : Visit} (h : v.engine.Lineage born) (due : v.Due) :
    v.after.Lineage (born ++ v.created) := by
  rcases due.creates with ⟨_, none, nothing, next⟩ | ⟨_, scripts, _, threads, created, next⟩
  · rw [nothing, List.append_nil]
    refine h.shrink ?_ next
    rw [none]
    exact List.nil_sublist _
  · rw [created]
    refine h.grow (.refl _) ?_ next
    rw [threads, Visit.grown, List.map_append, due.births_set]

theorem counted (h : e.Lineage born) : e.countOp.Lineage born := ⟨h.numbers, h.next, h.stems⟩

theorem course {e₀ : Engine} {vs : List Visit} (h : e₀.Lineage born) (course : Course e₀ vs e) :
    e.Lineage (born ++ vs.flatMap Visit.created) := by
  induction course with
  | begun =>
    rw [List.flatMap_nil, List.append_nil]
    exact h
  | pruned _ _ ih => exact ih.shrink (List.filter_sublist.map _) rfl
  | @stepped vs e v taken _ _ ih =>
    rw [List.flatMap_append, ← List.append_assoc, List.flatMap_singleton]
    exact after (taken.counted ▸ ih.counted) taken.due

theorem ends {e₀ : Engine} {vs : List Visit} (h : e₀.Lineage born) (ends : Ends e₀ vs e) :
    e.Lineage (born ++ vs.flatMap Visit.created) := by
  cases ends with
  | going course => exact h.course course
  | finished _ course => exact (h.course course).shrink (List.nil_sublist _) rfl
  | exceeded _ _ _ _ _ course => exact (h.course course).shrink (List.nil_sublist _) rfl
  | @halted vs e v taken _ course =>
    rw [List.flatMap_append, ← List.append_assoc, List.flatMap_singleton]
    exact after (taken.counted ▸ (h.course course).counted) taken.due

theorem beginTick (h : e.Lineage born) (now : Nat) : (e.beginTick now).Lineage born := by
  refine h.shrink ?_ (beginTick_nextThreadId e now)
  rw [beginTick_threads]

theorem tick (h : e.Lineage born) (now : Nat) :
    (e.tick now).1.Lineage (born ++ e.created (.tick now)) := by
  rcases e.tick_cases now with ⟨_, none, idle⟩ | ⟨_, e', ends, result⟩
  · rw [idle, created, none, List.flatMap_nil, List.append_nil]
    exact h
  · have done := (h.beginTick now).ends ends
    rcases result with ⟨_, same⟩ | ⟨_, same⟩
    · rw [same]
      exact ⟨done.numbers, done.next, done.stems⟩
    · rw [same]
      exact done

theorem visits (h : e.Lineage born) {now : Nat} {v : Visit} (hv : v ∈ e.visits (.tick now)) :
    ∃ born, v.engine.Lineage born := by
  rcases e.tick_cases now with ⟨_, none, _⟩ | ⟨_, e', ends, _⟩
  · rw [none] at hv
    cases hv
  · obtain ⟨before, e'', course, taken⟩ := ends.taken hv
    exact ⟨_, taken.counted ▸ ((h.beginTick now).course course).counted⟩

theorem start (h : e.Lineage born) (now : Nat) :
    (e.start now).Lineage (born ++ e.created (.start now)) := by
  cases ready : e.ready with
  | false =>
    obtain ⟨line, same⟩ := start_of_not_ready ready now
    have none : e.created (.start now) = [] := by simp [created, ready]
    rw [same, none, List.append_nil]
    exact ⟨h.numbers, h.next, h.stems⟩
  | true =>
    obtain ⟨p, line, _, _, same⟩ := start_of_ready ready now
    have new : e.created (.start now) = (e.start now).threads := by simp [created, ready]
    rw [new, same]
    exact h.grow (List.nil_sublist _) rfl rfl

theorem perform (h : e.Lineage born) (op : Operation) :
    (e.perform op).Lineage (born ++ e.created op) := by
  have same : born ++ [] = born := List.append_nil born
  cases op with
  | load p => exact same.symm ▸ h.shrink (.refl _) rfl
  | bind s => exact same.symm ▸ h.shrink (.refl _) rfl
  | start now => exact h.start now
  | stop => exact same.symm ▸ h.shrink (List.nil_sublist _) rfl
  | tick now => exact h.tick now

theorem performAll (h : e.Lineage born) (ops : List Operation) :
    (e.performAll ops).Lineage (born ++ e.births ops) := by
  induction ops generalizing e born with
  | nil =>
    rw [births, List.append_nil]
    exact h
  | cons op ops ih =>
    rw [births, ← List.append_assoc]
    exact ih (h.perform op)

theorem run (l : Limits) (ops : List Operation) :
    (({ limits := l } : Engine).performAll ops).Lineage
      (({ limits := l } : Engine).births ops) := by
  have fresh : ({ limits := l } : Engine).Lineage [] := ⟨rfl, rfl, .slnil⟩
  exact fresh.performAll ops

end Lineage

/-! ## Steps of a thread that is taken out -/

end Engine

/-- The record that stands in the list while a thread is taken out. -/
def Thread.placeholder : Thread where
  id := 0
  origin := ""
  frames := []
  bornTick := 0

namespace Engine

variable {e : Engine} {t : Thread} {i : Nat} {dt : Float}

def detach (i : Nat) (e : Engine) : Engine := { e with threads := e.threads.set i .placeholder }

/-- The thread at position `i` is taken out for the step, and put back unless the run has ended. -/
def stepDetached (e : Engine) (i : Nat) (t : Thread) (dt : Float) : Engine :=
  match (e.detach i).stepThread t dt with
  | (e', t', _) => if e'.running then { e' with threads := e'.threads.set i t' } else e'

def detachIn {α : Type} (i : Nat) (r : Engine × α) : Engine × α := (r.1.detach i, r.2)

theorem detach_isLive (listed : e.threads[i]? = some t) {id : Nat} (other : id ≠ t.id)
    (proper : id ≠ 0) : (e.detach i).isLive id = e.isLive id := by
  obtain ⟨inside, found⟩ := List.getElem?_eq_some_iff.mp listed
  have split : e.threads = e.threads.take i ++ t :: e.threads.drop (i + 1) := by
    rw [← found, List.getElem_cons_drop, List.take_append_drop]
  have replaced : (e.detach i).threads =
      e.threads.take i ++ .placeholder :: e.threads.drop (i + 1) := by
    rw [detach, List.set_eq_take_append_cons_drop, if_pos inside]
  have own : (t.id == id) = false := beq_eq_false_iff_ne.mpr other.symm
  have empty : (Thread.placeholder.id == id) = false := beq_eq_false_iff_ne.mpr proper.symm
  unfold isLive
  rw [replaced]
  conv_rhs => rw [split]
  simp only [List.any_append, List.any_cons, own, empty, Bool.false_and]

theorem detach_spawn (inside : i < e.threads.length) (line : String) (scripts : List Script) :
    ((e.detach i).report line).spawn scripts = ((e.report line).spawn scripts).detach i := by
  simp only [detach, report, spawn, List.set_append_left _ _ inside]

theorem detach_assign (name : String) (x : Float) :
    (e.detach i).assign name x = (e.assign name x).detach i := by
  unfold assign
  split <;> rfl

theorem detach_stepAction (a : Instruction) :
    (e.detach i).stepAction t a dt = detachIn i (e.stepAction t a dt) := by
  have begins : (e.detach i).beginAction? a = e.beginAction? a := by cases a <;> rfl
  unfold stepAction
  rw [begins]
  split
  · rfl
  · dsimp only
    have tick : (e.detach i).tickCount = e.tickCount := rfl
    rw [tick]
    split <;> rfl

theorem detach_stepWaiting {ids : List Nat}
    (alike : ∀ id ∈ ids, (e.detach i).isLive id = e.isLive id) :
    (e.detach i).stepWaiting t ids = detachIn i (e.stepWaiting t ids) := by
  have live : ids.any (e.detach i).isLive = ids.any e.isLive := by
    simpa using congrArg (List.any · id) (List.map_congr_left alike)
  unfold stepWaiting
  rw [live]
  split <;> rfl

theorem detach_stepBroadcast (inside : i < e.threads.length) (m : Expr) :
    (e.detach i).stepBroadcast t m = detachIn i (e.stepBroadcast t m) := by
  unfold stepBroadcast
  dsimp only
  rw [detach_spawn inside]
  rfl

/-- The thread waits only for younger ones, and has a number itself. -/
def AwaitsYounger (e : Engine) (t : Thread) : Prop :=
  t.id < e.nextThreadId ∧ ∀ ids, t.waitingOn = some ids → ∀ id ∈ ids, t.id < id

theorem detach_stepBroadcastWait (listed : e.threads[i]? = some t) (awaits : e.AwaitsYounger t)
    (m : Expr) : (e.detach i).stepBroadcastWait t m = detachIn i (e.stepBroadcastWait t m) := by
  obtain ⟨inside, _⟩ := List.getElem?_eq_some_iff.mp listed
  have alike : ∀ {e' : Engine} {id : Nat}, e'.threads[i]? = some t → t.id < id →
      (e'.detach i).isLive id = e'.isLive id := by
    intro e' id listed later
    exact detach_isLive listed (by omega) (by omega)
  unfold stepBroadcastWait
  split
  next ids waits =>
    exact detach_stepWaiting fun id hid => alike listed (awaits.2 ids waits id hid)
  · dsimp only
    rw [detach_spawn inside]
    apply detach_stepWaiting
    intro id hid
    apply alike
    · exact (List.getElem?_append_left inside).trans listed
    · rw [startThreads_ids] at hid
      exact awaits.1.trans_le (List.mem_range'_1.mp hid).1

theorem detach_stepInstruction (listed : e.threads[i]? = some t) (awaits : e.AwaitsYounger t)
    (a : Instruction) :
    (e.detach i).stepInstruction t a dt = detachIn i (e.stepInstruction t a dt) := by
  obtain ⟨inside, _⟩ := List.getElem?_eq_some_iff.mp listed
  cases a with
  | move _ => exact detach_stepAction _
  | turn _ => exact detach_stepAction _
  | wait _ => exact detach_stepAction _
  | setVar name value =>
    have store : (e.detach i).store = e.store := rfl
    simp only [stepInstruction, store, detach_assign]
    rfl
  | changeVar name delta =>
    have store : (e.detach i).store = e.store := rfl
    simp only [stepInstruction, store, detach_assign]
    rfl
  | deleteVar name => rfl
  | broadcast m wait =>
    cases wait with
    | true => exact detach_stepBroadcastWait listed awaits m
    | false => exact detach_stepBroadcast inside m
  | breakLoop =>
    unfold stepInstruction stepBreak
    dsimp only
    split <;> rfl
  | continueLoop =>
    unfold stepInstruction stepContinue
    dsimp only
    split <;> rfl
  | stopAll => rfl
  | stopThis => rfl
  | unsupported => rfl

theorem detach_stepCommand (listed : e.threads[i]? = some t) (awaits : e.AwaitsYounger t)
    (c : Command) :
    (e.detach i).stepCommand t c dt = detachIn i (e.stepCommand t c dt) := by
  have lit : (if c.blockId.isEmpty = true then e.detach i
      else (e.detach i).highlight (some c.blockId)) =
      (if c.blockId.isEmpty = true then e else e.highlight (some c.blockId)).detach i := by
    split <;> rfl
  have same : (if c.blockId.isEmpty = true then e else e.highlight (some c.blockId)).threads =
      e.threads ∧ (if c.blockId.isEmpty = true then e
        else e.highlight (some c.blockId)).nextThreadId = e.nextThreadId := by
    split <;> exact ⟨rfl, rfl⟩
  unfold stepCommand
  dsimp only
  rw [lit]
  generalize (if c.blockId.isEmpty = true then e else e.highlight (some c.blockId)) = e₀ at same ⊢
  rw [← same.1] at listed
  have awaits : e₀.AwaitsYounger t := ⟨same.2 ▸ awaits.1, awaits.2⟩
  have store : (e₀.detach i).store = e₀.store := rfl
  cases c with
  | simple id a => exact detach_stepInstruction listed awaits a
  | repeatTimes id times body =>
    dsimp only
    rw [store]
    split <;> rfl
  | forever id body => rfl
  | ifThen id cond body =>
    dsimp only
    rw [store]
    split <;> rfl
  | ifElse id cond yes no => rfl

/-- A step is the same with its thread taken out of the list. -/
theorem detach_stepThread (listed : e.threads[i]? = some t) (awaits : e.AwaitsYounger t) :
    (e.detach i).stepThread t dt = detachIn i (e.stepThread t dt) := by
  cases cur : t.current? with
  | some c =>
    rw [stepThread_current cur, stepThread_current cur, detach_stepCommand listed awaits]
    generalize e.stepCommand t c dt = done
    obtain ⟨e', t', result⟩ := done
    cases result <;> rfl
  | none =>
    rw [stepThread_spent cur, stepThread_spent cur]
    rfl

end Engine

/-! ## Isolation -/

namespace Visit

variable {v : Visit}

theorem Due.stepDetached_eq (due : v.Due) (ordered : v.engine.Ordered) :
    v.engine.stepDetached v.position v.thread v.dt = v.after := by
  have awaits : v.engine.AwaitsYounger v.thread := by
    refine ⟨ordered.bounded _ due.mem, fun ids waits id hid => ?_⟩
    exact (ordered.later _ due.mem id ((Thread.mem_awaited waits).mpr hid)).1
  have cleared : v.after.running = false → v.after.threads = [] := by
    intro stopped
    rcases due.creates with ⟨_, none, _⟩ | ⟨runs, _⟩
    · exact none
    · rw [stopped] at runs
      cases runs
  unfold after Engine.stepAt at cleared ⊢
  rw [Engine.stepDetached, Engine.detach_stepThread due.listed awaits]
  generalize v.engine.stepThread v.thread v.dt = done at cleared ⊢
  obtain ⟨e, t, progress⟩ := done
  dsimp only [Engine.detachIn] at cleared ⊢
  have running : (e.detach v.position).running = e.running := rfl
  rw [running]
  by_cases runs : e.running = true
  · rw [if_pos runs, if_pos runs]
    simp only [Engine.detach, List.set_set]
  · rw [if_neg runs] at cleared
    rw [if_neg runs, if_neg runs]
    have none : e.threads = [] := cleared (by simpa using runs)
    rw [Engine.detach, none, List.set_nil, ← none]

/-- The step leaves every other thread as it is. -/
structure Isolated (v : Visit) : Prop where
  same : v.stepped.birth = v.thread.birth
  ended : v.after.running = false → v.after.threads = []
  grows : v.after.running = true →
    ∃ scripts, v.Starts scripts ∧ v.after.threads = v.grown scripts
  others : v.after.running = true → ∀ j, j ≠ v.position → j < v.engine.threads.length →
    v.after.threads[j]? = v.engine.threads[j]?
  detached : v.engine.stepDetached v.position v.thread v.dt = v.after

theorem Due.isolated (due : v.Due) (ordered : v.engine.Ordered) : v.Isolated := by
  have detached := due.stepDetached_eq ordered
  rcases due.creates with ⟨stopped, none, _⟩ | ⟨runs, scripts, starts, threads, _⟩
  · exact ⟨v.stepped_birth, fun _ => none, by simp [stopped], by simp [stopped], detached⟩
  · refine ⟨v.stepped_birth, by simp [runs], fun _ => ⟨scripts, starts, threads⟩, ?_, detached⟩
    intro _ j other inside
    rw [threads, grown, List.getElem?_append_left (by simpa using inside),
      List.getElem?_set_ne other.symm]

end Visit

/-- In every run all threads are numbered in the order of their creation, so that no number is given
twice, and those in the list are in that order; every step of a tick leaves the other threads alone,
and no tick leaves a placeholder. -/
theorem threads_numbered_and_isolated (l : Limits) (ops : List Engine.Operation) :
    let e := ({ limits := l } : Engine).performAll ops
    e.Lineage (({ limits := l } : Engine).births ops) ∧ e.Numbered ∧
    ∀ now, (∀ v ∈ e.visits (.tick now), v.engine.Numbered ∧ v.after.Numbered ∧ v.Isolated) ∧
      (e.tick now).1.Numbered ∧ ∀ t ∈ (e.tick now).1.threads, t.id ≠ Thread.placeholder.id := by
  intro e
  have lineage : e.Lineage (({ limits := l } : Engine).births ops) := Engine.Lineage.run l ops
  refine ⟨lineage, lineage.numbered, fun now => ?_⟩
  have ticked := (lineage.tick now).numbered
  refine ⟨?_, ticked, fun t ht => Nat.ne_of_gt (ticked.positive t ht)⟩
  intro v hv
  obtain ⟨_, reached, due⟩ := (Reached.run l ops).visits hv
  obtain ⟨born, before⟩ := lineage.visits hv
  exact ⟨before.numbered, (before.after due).numbered, due.isolated reached.ordered⟩

end BlockStage
