import Mathlib.Data.List.MinMax
import Mathlib.Logic.Relation
import BlockStage.Proofs.Run

/-! # Waiting for handlers

Threads are numbered in the order of their creation, and a thread waits only for threads that it has
created itself. So waiting goes from smaller to greater numbers, no thread is waited for twice, and
the youngest unfinished thread waits for nobody.
-/
namespace BlockStage

namespace Thread

def awaited (t : Thread) : List Nat := t.waitingOn.getD []

theorem mem_awaited {t : Thread} {ids : List Nat} {id : Nat} (waits : t.waitingOn = some ids) :
    id ∈ t.awaited ↔ id ∈ ids := by
  simp [awaited, waits]

@[simp] theorem advance_id (t : Thread) : t.advance.id = t.id := by
  unfold advance; split <;> rfl

@[simp] theorem resume_id (t : Thread) (frames : List Frame) : (t.resume frames).id = t.id := by
  unfold resume; split <;> rfl

@[simp] theorem finishBody_id (t : Thread) : t.finishBody.id = t.id := by
  unfold finishBody
  split
  · rfl
  · split
    · simp
    · rfl
    · split <;> simp

@[simp] theorem advance_waitingOn (t : Thread) : t.advance.waitingOn = t.waitingOn := by
  unfold advance; split <;> rfl

@[simp] theorem resume_waitingOn (t : Thread) (frames : List Frame) :
    (t.resume frames).waitingOn = t.waitingOn := by
  unfold resume; split <;> rfl

@[simp] theorem finishBody_waitingOn (t : Thread) : t.finishBody.waitingOn = t.waitingOn := by
  unfold finishBody
  split
  · rfl
  · split
    · simp
    · rfl
    · split <;> simp

end Thread

namespace Engine

theorem Effect.id_eq {e e' : Engine} {t t' : Thread} {dt : Float} {progress : Bool}
    (h : Effect e t dt e' t' progress) : t'.id = t.id := by
  cases h <;> simp [Thread.enter, Thread.drop, Thread.finish]

theorem Effect.awaited {e e' : Engine} {t t' : Thread} {dt : Float} {progress : Bool}
    (h : Effect e t dt e' t' progress) {id : Nat} (hid : id ∈ t'.awaited) :
    id ∈ t.awaited ∨ e.nextThreadId ≤ id ∧ id < e'.nextThreadId := by
  cases h with
  | called cur idle heard quiet =>
    refine Or.inr ?_
    simpa [Thread.awaited, freshIds, spawn, quiet.nextThreadId, List.mem_range'_1] using hid
  | resumed | broke | continued | ended =>
    simp [Thread.awaited, Thread.drop, Thread.finish] at hid
  | _ => exact Or.inl (by simpa [Thread.awaited, Thread.enter] using hid)

/-- The numbering of threads and waits. -/
structure Ordered (e : Engine) : Prop where
  increasing : (e.threads.map Thread.id).Pairwise (· < ·)
  bounded : ∀ t ∈ e.threads, t.id < e.nextThreadId
  later : ∀ t ∈ e.threads, ∀ id ∈ t.awaited, t.id < id ∧ id < e.nextThreadId
  apart : ∀ t ∈ e.threads, ∀ u ∈ e.threads, ∀ id ∈ t.awaited, id ∈ u.awaited → t.id = u.id

theorem Ordered.position_unique {e : Engine} (h : e.Ordered) {i j : Nat} {t u : Thread}
    (hi : e.threads[i]? = some t) (hj : e.threads[j]? = some u) (same : t.id = u.id) : i = j := by
  have nodup : (e.threads.map Thread.id).Nodup := h.increasing.imp Nat.ne_of_lt
  have inside : i < (e.threads.map Thread.id).length := by
    simpa using (List.getElem?_eq_some_iff.mp hi).1
  refine (List.getElem?_inj inside nodup).mp ?_
  rw [List.getElem?_map, List.getElem?_map, hi, hj, Option.map_some, Option.map_some, same]

end Engine

namespace Visit

variable {v : Visit}

theorem stepped_id (v : Visit) : v.stepped.id = v.thread.id := v.effect.id_eq

theorem after_nextThreadId (v : Visit) :
    v.after.nextThreadId = (v.engine.stepThread v.thread v.dt).1.nextThreadId := by
  unfold after Engine.stepAt
  dsimp only
  split <;> rfl

theorem Due.mem_after (due : v.Due) (h : v.engine.Ordered) {t : Thread}
    (ht : t ∈ v.after.threads) :
    t = v.stepped ∨ (t ∈ v.engine.threads ∧ t.id ≠ v.thread.id) ∨
      t.waitingOn = none ∧ v.engine.nextThreadId ≤ t.id ∧ t.id < v.after.nextThreadId := by
  obtain ⟨_, _, outcome⟩ := due.after_cases
  cases outcome with
  | halted threads _ => rw [threads] at ht; cases ht
  | kept scripts _ threads next =>
    rw [threads] at ht
    rcases List.mem_append.mp ht with old | new
    · obtain ⟨j, hj⟩ := List.mem_iff_getElem?.mp old
      rw [List.getElem?_set] at hj
      split at hj
      · split at hj
        · exact Or.inl (Option.some.inj hj).symm
        · cases hj
      next other =>
        refine Or.inr (Or.inl ⟨List.mem_of_getElem? hj, fun same => other ?_⟩)
        exact h.position_unique due.listed hj same.symm
    · obtain ⟨s, _, k, low, high, rfl⟩ := Engine.mem_startThreads new
      exact Or.inr (Or.inr ⟨rfl, low, by rw [next]; exact high⟩)

theorem Due.nextThreadId_le (due : v.Due) : v.engine.nextThreadId ≤ v.after.nextThreadId := by
  obtain ⟨_, _, outcome⟩ := due.after_cases
  cases outcome with
  | halted _ next => exact next.ge
  | kept scripts _ _ next => omega

theorem Due.ids_set (due : v.Due) :
    (v.engine.threads.set v.position v.stepped).map Thread.id = v.engine.threads.map Thread.id := by
  obtain ⟨inside, found⟩ := List.getElem?_eq_some_iff.mp due.listed
  rw [List.map_set, v.stepped_id, ← found, ← List.map_set, List.set_getElem_self]

/-- The numbers behind a step are those before it, with new ones at the end. -/
theorem Due.ids_after (due : v.Due) : v.after.threads = [] ∨
    ∃ count, v.after.threads.map Thread.id =
      v.engine.threads.map Thread.id ++ List.range' v.engine.nextThreadId count := by
  obtain ⟨_, _, outcome⟩ := due.after_cases
  cases outcome with
  | halted threads _ => exact Or.inl threads
  | kept scripts _ threads _ =>
    refine Or.inr ⟨scripts.length, ?_⟩
    rw [threads, List.map_append, due.ids_set, Engine.startThreads_ids]

end Visit

namespace Engine.Ordered

variable {e : Engine}

theorem append_fresh {ids : List Nat} {next : Nat} (increasing : ids.Pairwise (· < ·))
    (bounded : ∀ id ∈ ids, id < next) (count : Nat) :
    (ids ++ List.range' next count).Pairwise (· < ·) := by
  refine List.pairwise_append.mpr ⟨increasing, List.pairwise_lt_range', fun a ha b hb => ?_⟩
  have := bounded a ha
  have := (List.mem_range'_1.mp hb).1
  omega

theorem after {v : Visit} (h : v.engine.Ordered) (due : v.Due) : v.after.Ordered := by
  have grows := due.nextThreadId_le
  have known : ∀ t, (t = v.stepped ∨ t ∈ v.engine.threads) → t.id < v.engine.nextThreadId := by
    rintro t (rfl | old)
    · rw [v.stepped_id]; exact h.bounded _ due.mem
    · exact h.bounded t old
  have waits : ∀ id ∈ v.stepped.awaited, id ∈ v.thread.awaited ∨
      v.engine.nextThreadId ≤ id ∧ id < v.after.nextThreadId := by
    intro id hid
    rw [v.after_nextThreadId]
    exact v.effect.awaited hid
  have own := h.later v.thread due.mem
  refine ⟨?_, ?_, ?_, ?_⟩
  · rcases due.ids_after with none | ⟨count, ids⟩
    · simp [none]
    · rw [ids]
      exact append_fresh h.increasing (by simpa using h.bounded) count
  · intro t ht
    rcases due.mem_after h ht with rfl | ⟨old, _⟩ | ⟨_, _, new⟩
    · exact (known _ (Or.inl rfl)).trans_le grows
    · exact (known t (Or.inr old)).trans_le grows
    · exact new
  · intro t ht id hid
    rcases due.mem_after h ht with rfl | ⟨old, _⟩ | ⟨idle, _, _⟩
    · rw [v.stepped_id]
      have := h.bounded _ due.mem
      rcases waits id hid with old | new
      · have := own id old; omega
      · omega
    · have := h.later t old id hid; omega
    · simp [Thread.awaited, idle] at hid
  · intro t ht u hu id hid hid'
    -- what the stepped thread shares with another one, it has shared before
    have shared : ∀ w ∈ v.engine.threads, id ∈ v.stepped.awaited → id ∈ w.awaited →
        v.thread.id = w.id := by
      intro w hw mine other
      rcases waits id mine with old | new
      · exact h.apart _ due.mem w hw id old other
      · have := h.later w hw id other; omega
    rcases due.mem_after h ht with rfl | ⟨ht, _⟩ | ⟨idle, _, _⟩
    · rcases due.mem_after h hu with rfl | ⟨hu, _⟩ | ⟨idle, _, _⟩
      · rfl
      · rw [v.stepped_id]; exact shared u hu hid hid'
      · simp [Thread.awaited, idle] at hid'
    · rcases due.mem_after h hu with rfl | ⟨hu, _⟩ | ⟨idle, _, _⟩
      · rw [v.stepped_id]; exact (shared t ht hid' hid).symm
      · exact h.apart t ht u hu id hid hid'
      · simp [Thread.awaited, idle] at hid'
    · simp [Thread.awaited, idle] at hid

theorem start (h : e.Ordered) (now : Nat) : (e.start now).Ordered := by
  rcases e.start_cases now with ⟨threads, next⟩ | ⟨p, _, threads, next⟩
  · exact ⟨by rw [threads]; exact h.increasing, by rw [threads, next]; exact h.bounded,
      by rw [threads, next]; exact h.later, by rw [threads]; exact h.apart⟩
  · have idle : ∀ t ∈ (e.start now).threads,
        t.awaited = [] ∧ t.id < (e.start now).nextThreadId := by
      intro t ht
      rw [threads] at ht
      obtain ⟨s, _, k, _, high, rfl⟩ := Engine.mem_startThreads ht
      exact ⟨rfl, by rw [next]; exact high⟩
    refine ⟨?_, fun t ht => (idle t ht).2, ?_, ?_⟩
    · rw [threads, Engine.startThreads_ids]
      exact List.pairwise_lt_range'
    · intro t ht id hid; rw [(idle t ht).1] at hid; cases hid
    · intro t ht u _ id hid; rw [(idle t ht).1] at hid; cases hid

end Engine.Ordered

theorem Reached.ordered {l : Limits} {Loads : Program → Prop} {h : List Visit} {e : Engine}
    (r : Reached l Loads h e) : e.Ordered := by
  induction r using Reached.threadInduction with
  | fresh => exact ⟨by simp, by simp, by simp, by simp⟩
  | idle _ _ threads next ih =>
    exact ⟨by rw [threads]; exact ih.increasing, by rw [threads, next]; exact ih.bounded,
      by rw [threads, next]; exact ih.later, by rw [threads]; exact ih.apart⟩
  | start now _ ih => exact ih.start now
  | stop =>
    have none : ∀ {t : Thread} {P : Prop}, t ∈ [] → P := fun ht => by cases ht
    exact ⟨.nil, fun _ => none, fun _ => none, fun _ => none⟩
  | prune _ ih =>
    refine ⟨ih.increasing.sublist (List.filter_sublist.map _), ?_, ?_, ?_⟩
    · intro t ht; exact ih.bounded t (List.mem_of_mem_filter ht)
    · intro t ht; exact ih.later t (List.mem_of_mem_filter ht)
    · intro t ht u hu
      exact ih.apart t (List.mem_of_mem_filter ht) u (List.mem_of_mem_filter hu)
  | step v due _ ih => exact ih.after due

namespace Engine

def WaitsFor (e : Engine) (a b : Nat) : Prop :=
  ∃ t ∈ e.threads, t.id = a ∧ ∃ ids, t.waitingOn = some ids ∧ b ∈ ids

/-- Waiting cannot block a run. -/
structure DeadlockFree (e : Engine) : Prop where
  later : ∀ t ∈ e.threads, ∀ ids, t.waitingOn = some ids →
    ∀ id ∈ ids, t.id < id ∧ id < e.nextThreadId
  apart : ∀ (i j : Nat) (t u : Thread) (ids jds : List Nat) (id : Nat),
    e.threads[i]? = some t → e.threads[j]? = some u →
    t.waitingOn = some ids → u.waitingOn = some jds → id ∈ ids → id ∈ jds → i = j
  acyclic : ∀ a, ¬ Relation.TransGen e.WaitsFor a a
  progress : (∃ t ∈ e.threads, t.finished = false) →
    ∃ t ∈ e.threads, t.finished = false ∧
      (∀ u ∈ e.threads, u.finished = false → u.id ≤ t.id) ∧
      ∀ ids, t.waitingOn = some ids → ∀ id ∈ ids, e.isLive id = false

namespace Ordered

variable {e : Engine}

theorem waitsFor_lt (h : e.Ordered) {a b : Nat} (w : e.WaitsFor a b) : a < b := by
  obtain ⟨t, ht, rfl, ids, waits, hb⟩ := w
  exact (h.later t ht b ((Thread.mem_awaited waits).mpr hb)).1

theorem exists_youngest (e : Engine) (h : ∃ t ∈ e.threads, t.finished = false) :
    ∃ t ∈ e.threads, t.finished = false ∧ ∀ u ∈ e.threads, u.finished = false → u.id ≤ t.id := by
  have mem : ∀ u, u ∈ e.liveThreads ↔ u ∈ e.threads ∧ u.finished = false := by
    intro u; simp [liveThreads]
  cases found : e.liveThreads.argmax Thread.id with
  | none =>
    obtain ⟨t, live⟩ := h
    rw [← mem, List.argmax_eq_none.mp found] at live
    cases live
  | some t =>
    obtain ⟨ht, unfinished⟩ := (mem t).mp (List.argmax_mem found)
    exact ⟨t, ht, unfinished, fun u hu live => List.le_of_mem_argmax ((mem u).mpr ⟨hu, live⟩) found⟩

theorem deadlockFree (h : e.Ordered) : e.DeadlockFree := by
  refine ⟨?_, ?_, ?_, ?_⟩
  · intro t ht ids waits id hid
    exact h.later t ht id ((Thread.mem_awaited waits).mpr hid)
  · intro i j t u ids jds id hi hj wt wu mt mu
    refine h.position_unique hi hj (h.apart t (List.mem_of_getElem? hi) u
      (List.mem_of_getElem? hj) id ?_ ?_)
    · exact (Thread.mem_awaited wt).mpr mt
    · exact (Thread.mem_awaited wu).mpr mu
  · intro a cycle
    have rises : ∀ b, Relation.TransGen e.WaitsFor a b → a < b := by
      intro b path
      induction path with
      | single w => exact h.waitsFor_lt w
      | tail _ w ih => exact ih.trans (h.waitsFor_lt w)
    exact Nat.lt_irrefl a (rises a cycle)
  · intro some
    obtain ⟨t, ht, unfinished, greatest⟩ := exists_youngest e some
    refine ⟨t, ht, unfinished, greatest, fun ids waits id hid => ?_⟩
    have after := (h.later t ht id ((Thread.mem_awaited waits).mpr hid)).1
    by_contra live
    obtain ⟨u, hu, found⟩ := List.any_eq_true.mp (Bool.not_eq_false _ ▸ live)
    simp only [Bool.and_eq_true, beq_iff_eq, Bool.not_eq_true'] at found
    have := greatest u hu found.2
    omega

end Ordered

end Engine

/-- In every run, waiting for handlers cannot deadlock: between operations, and in the engine before
every step of a tick that follows. -/
theorem waiting_deadlock_free (l : Limits) (ops : List Engine.Operation) :
    let e := ({ limits := l } : Engine).performAll ops
    e.DeadlockFree ∧ ∀ now, ∀ v ∈ e.visits (.tick now), v.engine.DeadlockFree := by
  intro e
  have reached := Reached.run l ops
  refine ⟨reached.ordered.deadlockFree, fun now v hv => ?_⟩
  obtain ⟨_, here, _⟩ := reached.visits hv
  exact here.ordered.deadlockFree

end BlockStage
