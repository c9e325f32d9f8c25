import BlockStage.Proofs.Isolation
import BlockStage.Proofs.Passes

/-! # Taking turns

A tick goes over its threads in passes, and every pass gives each of them one step. So threads that
are there for the whole tick have been stepped equally often when it ends, but for the pass in which
the steps ran out: the threads before that place are one step ahead. What a tick starts has to wait
for the next one.
-/
namespace BlockStage

/-- How often the thread with the given number has been stepped. -/
def turns (vs : List Visit) (id : Nat) : Nat := vs.countP fun v => v.thread.id == id

theorem turns_cons_self {v : Visit} {vs : List Visit} {id : Nat} (own : v.thread.id = id) :
    turns (v :: vs) id = turns vs id + 1 :=
  List.countP_cons_of_pos (by simpa using own)

theorem turns_cons_ne {v : Visit} {vs : List Visit} {id : Nat} (other : v.thread.id ≠ id) :
    turns (v :: vs) id = turns vs id :=
  List.countP_cons_of_neg (by simpa using other)

@[simp] theorem turns_reverse (vs : List Visit) (id : Nat) : turns vs.reverse id = turns vs id :=
  List.countP_reverse

/-- No thread is younger than the tick. -/
def Engine.Aged (e : Engine) : Prop := ∀ t ∈ e.threads, t.bornTick ≤ e.tickCount

namespace Engine.Aged

variable {e : Engine}

theorem start (h : e.Aged) (now : Nat) : (e.start now).Aged := by
  intro t ht
  rw [start_tickCount]
  rcases e.start_cases now with ⟨same, _⟩ | ⟨p, _, started, _⟩
  · exact h t (same ▸ ht)
  · rw [started] at ht
    obtain ⟨s, _, k, _, _, rfl⟩ := mem_startThreads ht
    exact Nat.le_refl _

theorem beginTick (h : e.Aged) (now : Nat) : ∀ t ∈ (e.beginTick now).threads,
    t.bornTick < (e.beginTick now).tickCount := by
  intro t ht
  rw [beginTick_tickCount]
  exact Nat.lt_succ_of_le (h t (by simpa using ht))

theorem prune (h : e.Aged) : e.prune.Aged := fun t ht => h t (List.mem_of_mem_filter ht)

theorem after {v : Visit} (h : v.engine.Aged) (due : v.Due) : v.after.Aged := by
  intro t ht
  obtain ⟨_, tickCount, outcome⟩ := due.after_cases
  rw [tickCount]
  cases outcome with
  | halted threads _ => rw [threads] at ht; cases ht
  | kept scripts _ threads _ =>
    rw [threads] at ht
    rcases List.mem_append.mp ht with old | new
    · rcases List.mem_or_eq_of_mem_set old with old | rfl
      · exact h t old
      · have born : v.stepped.bornTick = v.thread.bornTick := congrArg (·.2.2) v.stepped_birth
        rw [born]
        exact h _ due.mem
    · obtain ⟨s, _, k, _, _, rfl⟩ := mem_startThreads new
      exact Nat.le_refl _

end Engine.Aged

theorem Reached.aged {l : Limits} {Loads : Program → Prop} {h : List Visit} {e : Engine}
    (r : Reached l Loads h e) : e.Aged := by
  induction r with
  | fresh => simp [Engine.Aged]
  | load _ _ _ ih => exact ih
  | bind _ _ ih => exact ih
  | start now _ ih => exact ih.start now
  | stop => intro t ht; cases ht
  | report _ _ ih => exact ih
  | request _ ih => exact ih
  | beginTick now _ ih => exact fun t ht => Nat.le_of_lt (ih.beginTick now t ht)
  | prune _ ih => exact ih.prune
  | count _ ih => exact ih
  | step v due _ ih => exact ih.after due

theorem Visit.Due.listed_after {v : Visit} (due : v.Due) (runs : v.after.running = true) {j : Nat}
    {t : Thread} (listed : v.after.threads[j]? = some t) :
    j = v.position ∧ t = v.stepped ∨ j ≠ v.position ∧ v.engine.threads[j]? = some t ∨
    v.engine.threads.length ≤ j ∧ v.engine.nextThreadId ≤ t.id ∧
      t.bornTick = v.engine.tickCount ∧ t.action = none := by
  obtain ⟨e, scripts, _, _, after⟩ := due.after_of_running runs
  have threads : v.after.threads = v.grown scripts := by rw [after]
  rw [threads, grown, List.getElem?_append, List.length_set] at listed
  split at listed
  · rw [List.getElem?_set] at listed
    split at listed
    next own =>
      split at listed
      · exact Or.inl ⟨own.symm, (Option.some.inj listed).symm⟩
      · cases listed
    next other => exact Or.inr (Or.inl ⟨fun same => other same.symm, listed⟩)
  next behind =>
    obtain ⟨s, _, k, low, _, rfl⟩ := Engine.mem_startThreads (List.mem_of_getElem? listed)
    exact Or.inr (Or.inr ⟨Nat.le_of_not_lt behind, low, rfl, rfl⟩)

namespace Pass

variable {dt : Float} {p : Pass}

/-! ## Single turns -/

/-- All that the turn of a position can do to a pass that has not ended. -/
inductive Turn (dt : Float) (p : Pass) (i : Nat) : Pass → Prop where
  | skipped (idle : ∀ t, p.engine.threads[i]? = some t → t.finished = false →
      p.engine.tickCount ≤ t.bornTick) : Turn dt p i p
  | spent (left : p.left = 0) : Turn dt p i { p with ended := true }
  | exceeded : Turn dt p i { p.count with
      ended := true, engine := (p.count.engine.report Engine.safetyLine).stop }
  | stepped {v : Visit} (due : v.Due) (counted : v.engine = p.engine.countOp)
      (position : v.position = i) (time : v.dt = dt) :
      Turn dt p i { p with
        engine := v.after, left := p.left - 1, progressed := p.progressed || v.progress
        ended := !v.after.running, visits := v :: p.visits }

theorem turn_of_going (going : p.ended = false) (running : p.engine.running = true) (i : Nat) :
    Turn dt p i (p.turn dt i) := by
  unfold turn
  rw [if_neg (by simp [going])]
  split
  next none =>
    refine .skipped fun t listed => ?_
    rw [none] at listed
    cases listed
  next t listed =>
    split
    next idle =>
      simp only [Bool.or_eq_true, decide_eq_true_eq] at idle
      refine .skipped fun u listed' unfinished => ?_
      obtain rfl := Option.some.inj (listed.symm.trans listed')
      rcases idle with finished | young
      · rw [unfinished] at finished
        cases finished
      · exact young
    next eligible =>
      simp only [Bool.or_eq_true, decide_eq_true_eq, not_or, Bool.not_eq_true,
        Nat.not_le] at eligible
      split
      next left => exact .spent left
      · dsimp only
        split
        · exact .exceeded
        · let v : Visit := ⟨p.engine.countOp, i, t, dt, (p.engine.countOp.stepThread t dt).2.2⟩
          have due : v.Due := ⟨running, listed, eligible.1, eligible.2, rfl⟩
          have open' : p.count.ended = false := going
          rw [visit_eq, open', Bool.false_or]
          exact Turn.stepped due rfl rfl rfl

theorem turn_of_ended (ended : p.ended = true) (i : Nat) : p.turn dt i = p := by
  rw [turn, if_pos ended]

theorem round_induction (dt : Float) {I : Nat → Pass → Prop} {E : Pass → Prop}
    (going : p.ended = false) (begun : I 0 { p with progressed := false })
    (step : ∀ i q, i < p.engine.threads.length → q.ended = false → I i q →
      ((q.turn dt i).ended = true → E (q.turn dt i)) ∧
      ((q.turn dt i).ended = false → I (i + 1) (q.turn dt i))) :
    ((p.round dt).ended = true → E (p.round dt)) ∧
    ((p.round dt).ended = false → I p.engine.threads.length (p.round dt)) := by
  have fold : ∀ n, n ≤ p.engine.threads.length →
      let q := (List.range n).foldl (turn dt) { p with progressed := false }
      (q.ended = true → E q) ∧ (q.ended = false → I n q) := by
    intro n
    induction n with
    | zero =>
      intro _
      refine ⟨fun ended => ?_, fun _ => begun⟩
      rw [List.range_zero, List.foldl_nil] at ended
      exact absurd ended (by simp [going])
    | succ n ih =>
      intro inside
      obtain ⟨ended, open'⟩ := ih (Nat.le_of_succ_le inside)
      dsimp only at ended open' ⊢
      rw [List.range_succ, List.foldl_append, List.foldl_cons, List.foldl_nil]
      generalize (List.range n).foldl (turn dt) { p with progressed := false } = q at ended open' ⊢
      cases status : q.ended with
      | true =>
        rw [turn_of_ended status]
        exact ⟨ended, fun going => by rw [status] at going; cases going⟩
      | false => exact step n q inside status (open' status)
  exact fold _ (Nat.le_refl _)

/-! ## Even turns -/

variable {l : Limits} {Loads : Program → Prop} {h : List Visit} {who : List Nat} {n k i : Nat}

/-- The threads numbered in `who` take turns: each of them that is left has been stepped `k` times,
and once more if it stands before position `i`. Behind position `n` there is none of them. -/
structure Fair (l : Limits) (Loads : Program → Prop) (h : List Visit) (who : List Nat)
    (n k i : Nat) (p : Pass) : Prop where
  sound : p.Sound l Loads h
  known : ∀ id ∈ who, id < p.engine.nextThreadId
  due : ∀ t ∈ p.engine.threads, t.finished = false →
    (t.id ∈ who ↔ t.bornTick < p.engine.tickCount)
  only : ∀ v ∈ p.visits, v.thread.id ∈ who
  even : ∀ j t, p.engine.threads[j]? = some t → t.finished = false → t.id ∈ who →
    turns p.visits t.id = if j < i then k + 1 else k
  beyond : ∀ j t, n ≤ j → p.engine.threads[j]? = some t → t.id ∉ who

theorem Fair.stepped {v : Visit} {q : Pass} (fair : p.Fair l Loads h who n k i) (due : v.Due)
    (counted : v.engine = p.engine.countOp) (position : v.position = i) (inside : i < n)
    (runs : v.after.running = true) (sound : q.Sound l Loads h) (engine : q.engine = v.after)
    (visits : q.visits = v :: p.visits) : q.Fair l Loads h who n k (i + 1) := by
  have ordered : v.engine.Ordered := counted ▸ fair.sound.reached.count.ordered
  have threads : v.engine.threads = p.engine.threads := by rw [counted]; rfl
  have next : v.engine.nextThreadId = p.engine.nextThreadId := by rw [counted]; rfl
  have tick : v.engine.tickCount = p.engine.tickCount := by rw [counted]; rfl
  have tickAfter : v.after.tickCount = p.engine.tickCount := due.after_cases.2.1.trans tick
  have mine : v.thread.id ∈ who := by
    rw [fair.due v.thread (threads ▸ due.mem) due.unfinished, ← tick]
    exact due.older
  have born : v.stepped.bornTick = v.thread.bornTick := congrArg (·.2.2) v.stepped_birth
  have fresh : ∀ {t : Thread}, v.engine.nextThreadId ≤ t.id → t.id ∉ who := by
    intro t new there
    have := fair.known _ there
    omega
  constructor
  · exact sound
  · intro id hid
    rw [engine]
    exact Nat.lt_of_lt_of_le (next ▸ fair.known id hid) due.nextThreadId_le
  · rw [engine, tickAfter]
    intro t ht unfinished
    obtain ⟨j, listed⟩ := List.mem_iff_getElem?.mp ht
    rcases due.listed_after runs listed with ⟨_, rfl⟩ | ⟨_, old⟩ | ⟨_, new, young, _⟩
    · rw [v.stepped_id, born]
      exact fair.due v.thread (threads ▸ due.mem) due.unfinished
    · exact fair.due t (threads ▸ List.mem_of_getElem? old) unfinished
    · exact ⟨fun there => absurd there (fresh new), fun older => by omega⟩
  · rw [visits]
    intro w hw
    rcases List.mem_cons.mp hw with rfl | earlier
    · exact mine
    · exact fair.only w earlier
  · rw [engine, visits]
    intro j t listed unfinished there
    rcases due.listed_after runs listed with ⟨here, rfl⟩ | ⟨other, old⟩ | ⟨_, new, _⟩
    · have before := fair.even i v.thread (by rw [← threads, ← position]; exact due.listed)
        due.unfinished mine
      rw [v.stepped_id, turns_cons_self rfl, before, if_neg (Nat.lt_irrefl i), here, position,
        if_pos (Nat.lt_succ_self i)]
    · have apart : v.thread.id ≠ t.id :=
        fun same => other (ordered.position_unique due.listed old same).symm
      rw [turns_cons_ne apart, fair.even j t (threads ▸ old) unfinished there]
      have : j < i + 1 ↔ j < i := by omega
      simp only [this]
    · exact absurd there (fresh new)
  · rw [engine]
    intro j t behind listed
    rcases due.listed_after runs listed with ⟨here, _⟩ | ⟨_, old⟩ | ⟨_, new, _⟩
    · omega
    · exact fair.beyond j t behind (threads ▸ old)
    · exact fresh new

/-- One turn: the tick ends with the turns taken so far, the run ends, or it is the turn of the next
thread. -/
theorem Fair.turn (dt : Float) (fair : p.Fair l Loads h who n k i) (going : p.ended = false)
    (inside : i < n) :
    ((p.turn dt i).ended = true →
      (p.turn dt i).engine.running = true → (p.turn dt i).Fair l Loads h who n k i) ∧
    ((p.turn dt i).ended = false → (p.turn dt i).Fair l Loads h who n k (i + 1)) := by
  have sound : (p.turn dt i).Sound l Loads h := turn_sound fair.sound
  have turn : Turn dt p i (p.turn dt i) := turn_of_going going (fair.sound.running going) i
  generalize p.turn dt i = q at sound turn ⊢
  cases turn with
  | skipped idle =>
    constructor
    · intro ended
      rw [going] at ended
      cases ended
    · intro _
      refine ⟨sound, fair.known, fair.due, fair.only, fun j t listed unfinished there => ?_,
        fair.beyond⟩
      -- the thread at this position is none of those that take turns
      have other : j ≠ i := by
        rintro rfl
        have older := (fair.due t (List.mem_of_getElem? listed) unfinished).mp there
        have young := idle t listed unfinished
        omega
      rw [fair.even j t listed unfinished there]
      have : j < i + 1 ↔ j < i := by omega
      simp only [this]
  | spent left =>
    constructor
    · intro _ _
      exact ⟨sound, fair.known, fair.due, fair.only, fair.even, fair.beyond⟩
    · intro open'
      cases open'
  | exceeded =>
    constructor
    · intro _ runs
      cases runs
    · intro open'
      cases open'
  | @stepped v due counted position _ =>
    constructor
    · intro ended runs
      have runs : v.after.running = true := runs
      simp [runs] at ended
    · intro open'
      have runs : v.after.running = true := by simpa using open'
      exact fair.stepped due counted position inside runs sound rfl rfl

/-- Between passes, and at the end of a tick that the run survives, turns have been fair. -/
def Served (l : Limits) (Loads : Program → Prop) (h : List Visit) (who : List Nat) (p : Pass) :
    Prop :=
  ∃ n k i, p.Fair l Loads h who n k i ∧ (p.ended = false → i = 0)

theorem Fair.pruned (fair : p.Fair l Loads h who n k 0) :
    p.pruned.Fair l Loads h who p.pruned.engine.threads.length k 0 where
  sound := ⟨fair.sound.reached.prune, fair.sound.running⟩
  known := fair.known
  due t ht := fair.due t (List.mem_of_mem_filter ht)
  only := fair.only
  even j t listed unfinished there := by
    obtain ⟨j', listed'⟩ := List.mem_iff_getElem?.mp
      (List.mem_of_mem_filter (List.mem_of_getElem? listed))
    have even := fair.even j' t listed' unfinished there
    rw [if_neg (Nat.not_lt_zero j')] at even
    rw [if_neg (Nat.not_lt_zero j)]
    exact even
  beyond j t behind listed := by
    have inside := (List.getElem?_eq_some_iff.mp listed).1
    omega

theorem Fair.round (fair : p.Fair l Loads h who p.engine.threads.length k 0)
    (going : p.ended = false) (runs : (p.round dt).engine.running = true) :
    (p.round dt).Served l Loads h who := by
  have begun : Fair l Loads h who p.engine.threads.length k 0 { p with progressed := false } :=
    ⟨⟨fair.sound.reached, fair.sound.running⟩, fair.known, fair.due, fair.only, fair.even,
      fair.beyond⟩
  obtain ⟨cut, whole⟩ := round_induction dt
    (I := fun i q => q.Fair l Loads h who p.engine.threads.length k i)
    (E := fun q => q.engine.running = true →
      ∃ i, q.Fair l Loads h who p.engine.threads.length k i) going begun
    (fun i q inside going fair => by
      obtain ⟨ended, open'⟩ := fair.turn dt going inside
      exact ⟨fun told runs => ⟨i, ended told runs⟩, open'⟩)
  cases status : (p.round dt).ended with
  | true =>
    obtain ⟨i, fair⟩ := cut status runs
    exact ⟨_, k, i, fair, fun open' => by rw [status] at open'; cases open'⟩
  | false =>
    have fair := whole status
    refine ⟨_, k + 1, 0, ⟨fair.sound, fair.known, fair.due, fair.only, ?_, fair.beyond⟩,
      fun _ => rfl⟩
    intro j t listed unfinished there
    have inside : j < p.engine.threads.length := by
      by_contra behind
      exact fair.beyond j t (Nat.le_of_not_lt behind) listed there
    rw [fair.even j t listed unfinished there, if_pos inside, if_neg (Nat.not_lt_zero j)]

theorem EndsIn.served {q : Pass} (ends : EndsIn dt p q) (runs : q.engine.running = true)
    (served : p.engine.running = true → p.Served l Loads h who) : q.Served l Loads h who := by
  have round : ∀ {p : Pass}, p.Open → (p.engine.running = true → p.Served l Loads h who) →
      (p.pruned.round dt).engine.running = true → (p.pruned.round dt).Served l Loads h who := by
    intro p going served runs
    obtain ⟨n, k, i, fair, first⟩ := served going.2.1
    obtain rfl := first going.1
    exact fair.pruned.round going.1 runs
  induction ends with
  | closed => exact served runs
  | finished => cases runs
  | still going => exact round going served runs
  | again going _ _ _ ih => exact ih runs (round going served)

/-! ## A turn for everyone -/

/-- Where the pass `q` that began as `p` has come to position `i`: the threads before it have been
stepped, and those from it on are as they were. -/
structure Sweeps (p : Pass) (i : Nat) (q : Pass) : Prop where
  running : q.ended = false → q.engine.running = true
  tickCount : q.engine.tickCount = p.engine.tickCount
  left : p.left ≤ q.left + i
  ahead : ∀ j, i ≤ j → j < p.engine.threads.length →
    q.engine.threads[j]? = p.engine.threads[j]?
  stepped : ∀ j t, j < i → p.engine.threads[j]? = some t → 0 < turns q.visits t.id

theorem Sweeps.turn {q : Pass} (sweeps : p.Sweeps i q) (going : q.ended = false)
    (inside : i < p.engine.threads.length) (enough : p.engine.threads.length ≤ p.left)
    (due : ∀ t ∈ p.engine.threads, t.finished = false ∧ t.bornTick < p.engine.tickCount) :
    ((q.turn dt i).ended = true → (q.turn dt i).engine.running = false) ∧
    ((q.turn dt i).ended = false → p.Sweeps (i + 1) (q.turn dt i)) := by
  have turn : Turn dt q i (q.turn dt i) := turn_of_going going (sweeps.running going) i
  have left := sweeps.left
  have here := sweeps.ahead i (Nat.le_refl i) inside
  generalize q.turn dt i = r at turn ⊢
  cases turn with
  | skipped idle =>
    obtain ⟨unfinished, older⟩ := due _ (List.getElem_mem inside)
    have young := idle _ (here.trans (List.getElem?_eq_getElem inside)) unfinished
    rw [sweeps.tickCount] at young
    omega
  | spent none => omega
  | exceeded => exact ⟨fun _ => rfl, fun open' => by cases open'⟩
  | @stepped v dueNow counted position _ =>
    constructor
    · intro ended
      simpa using ended
    · intro open'
      have runs : v.after.running = true := by simpa using open'
      have threads : v.engine.threads = q.engine.threads := by rw [counted]; rfl
      have listed : q.engine.threads[i]? = some v.thread := by
        rw [← threads, ← position]
        exact dueNow.listed
      obtain ⟨e, scripts, _, _, after⟩ := dueNow.after_of_running runs
      have grown : v.after.threads = v.grown scripts := by rw [after]
      refine ⟨fun _ => runs, ?_, ?_, ?_, ?_⟩
      · rw [← sweeps.tickCount]
        exact dueNow.after_cases.2.1.trans (by rw [counted]; rfl)
      · dsimp only
        omega
      · intro j ahead within
        dsimp only
        have same := sweeps.ahead j (Nat.le_of_succ_le ahead) within
        have long : j < q.engine.threads.length := by
          rw [List.getElem?_eq_getElem within] at same
          exact (List.getElem?_eq_some_iff.mp same).1
        rw [grown, Visit.grown, List.getElem?_append_left (by simpa [threads] using long),
          List.getElem?_set_ne (by omega), threads]
        exact same
      · intro j t before listed'
        by_cases last : j = i
        · have own : v.thread.id = t.id := by
            rw [last, ← here, listed] at listed'
            rw [Option.some.inj listed']
          rw [turns_cons_self own]
          exact Nat.succ_pos _
        · have earlier := sweeps.stepped j t (by omega) listed'
          by_cases own : v.thread.id = t.id
          · rw [turns_cons_self own]
            exact Nat.succ_pos _
          · rwa [turns_cons_ne own]

/-- A pass with a step for each of its threads steps each of them, unless it ends the run. -/
theorem round_sweeps (going : p.ended = false) (running : p.engine.running = true)
    (enough : p.engine.threads.length ≤ p.left)
    (due : ∀ t ∈ p.engine.threads, t.finished = false ∧ t.bornTick < p.engine.tickCount)
    (runs : (p.round dt).engine.running = true) :
    ∀ t ∈ p.engine.threads, 0 < turns (p.round dt).visits t.id := by
  have begun : p.Sweeps 0 { p with progressed := false } :=
    ⟨fun _ => running, rfl, Nat.le_refl _, fun _ _ _ => rfl, fun _ _ before => by cases before⟩
  obtain ⟨cut, whole⟩ := round_induction dt (I := p.Sweeps)
    (E := fun q => q.engine.running = false) going begun
    (fun i q inside going sweeps => sweeps.turn going inside enough due)
  intro t ht
  cases status : (p.round dt).ended with
  | true =>
    rw [cut status] at runs
    cases runs
  | false =>
    obtain ⟨j, listed⟩ := List.mem_iff_getElem?.mp ht
    exact (whole status).stepped j t (List.getElem?_eq_some_iff.mp listed).1 listed

/-- The steps of the second pass are those of the first one and more of them, all with the same
time. -/
def Adds (dt : Float) (p q : Pass) : Prop :=
  ∃ more, q.visits = more ++ p.visits ∧ ∀ v ∈ more, v.dt = dt

theorem Adds.refl (p : Pass) : p.Adds dt p := ⟨[], rfl, by simp⟩

theorem Adds.trans {q r : Pass} (h : p.Adds dt q) (k : q.Adds dt r) : p.Adds dt r := by
  obtain ⟨more, visits, times⟩ := h
  obtain ⟨more', visits', times'⟩ := k
  refine ⟨more' ++ more, by rw [visits', visits, List.append_assoc], fun v hv => ?_⟩
  rcases List.mem_append.mp hv with late | early
  · exact times' v late
  · exact times v early

theorem turn_adds (p : Pass) (dt : Float) (i : Nat) : p.Adds dt (p.turn dt i) := by
  unfold turn
  split
  · exact .refl p
  · split
    · exact .refl p
    · split
      · exact .refl p
      · split
        · exact ⟨[], rfl, by simp⟩
        · dsimp only
          split
          · exact ⟨[], rfl, by simp⟩
          · rw [visit_eq]
            exact ⟨[_], rfl, by simp⟩

theorem round_adds (p : Pass) (dt : Float) : p.Adds dt (p.round dt) := by
  have fold : ∀ (positions : List Nat) (q : Pass), q.Adds dt (positions.foldl (turn dt) q) := by
    intro positions
    induction positions with
    | nil => exact fun q => .refl q
    | cons i positions ih => exact fun q => (turn_adds q dt i).trans (ih _)
  exact fold (List.range p.engine.threads.length) { p with progressed := false }

theorem EndsIn.adds {q : Pass} (ends : EndsIn dt p q) : p.Adds dt q := by
  induction ends with
  | closed => exact .refl _
  | finished => exact ⟨[], rfl, by simp⟩
  | @still p => exact round_adds p.pruned dt
  | @again p _ _ _ _ _ ih => exact (round_adds p.pruned dt).trans ih

theorem EndsIn.running_of {q : Pass} (ends : EndsIn dt p q) (runs : q.engine.running = true) :
    p.engine.running = true := by
  cases ends with
  | closed => exact runs
  | finished going | still going | again going => exact going.2.1

theorem EndsIn.sweeps {q : Pass} (ends : EndsIn dt p q) (going : p.ended = false)
    (running : p.engine.running = true) (enough : p.engine.liveThreads.length ≤ p.left)
    (older : ∀ t ∈ p.engine.threads, t.bornTick < p.engine.tickCount)
    (runs : q.engine.running = true) :
    ∀ t ∈ p.engine.liveThreads, 0 < turns q.visits t.id := by
  have due : ∀ t ∈ p.pruned.engine.threads,
      t.finished = false ∧ t.bornTick < p.pruned.engine.tickCount := by
    intro t ht
    obtain ⟨there, unfinished⟩ := List.mem_filter.mp ht
    exact ⟨by simpa using unfinished, older t there⟩
  have first : (p.pruned.round dt).engine.running = true →
      ∀ t ∈ p.engine.liveThreads, 0 < turns (p.pruned.round dt).visits t.id :=
    round_sweeps (p := p.pruned) going running enough due
  cases ends with
  | closed closed =>
    have spent : p.left = 0 := by
      by_contra left
      exact closed ⟨going, running, left⟩
    have none : p.engine.liveThreads = [] := by
      rw [spent] at enough
      exact List.length_eq_zero_iff.mp (Nat.le_zero.mp enough)
    simp [none]
  | finished => cases runs
  | still => exact first runs
  | again _ _ _ rest =>
    have still := rest.running_of runs
    intro t ht
    obtain ⟨more, visits, _⟩ := rest.adds
    have sub : (p.pruned.round dt).visits.Sublist q.visits :=
      visits ▸ List.sublist_append_right more _
    exact Nat.lt_of_lt_of_le (first still t ht) sub.countP_le

end Pass

namespace Engine

variable {e : Engine} {now : Nat}

theorem tick_continued (continued : (e.tick now).2 = .continued) :
    e.running = true ∧ (e.tickPass now).engine.running = true ∧
      e.visits (.tick now) = (e.tickPass now).visits.reverse ∧
      (e.tick now).1 = { (e.tickPass now).engine with pending := true } := by
  cases asked : e.running && e.pending with
  | false => simp [tick, asked] at continued
  | true =>
    obtain ⟨running, pending⟩ := Bool.and_eq_true_iff.mp asked
    obtain ⟨visits, ⟨goes, same⟩ | ⟨_, same⟩⟩ := tick_of_running running pending now
    · exact ⟨running, goes, visits, by rw [same]⟩
    · rw [same] at continued
      cases continued

theorem visits_dt {v : Visit} (hv : v ∈ e.visits (.tick now)) : v.dt = e.delta now := by
  simp only [visits] at hv
  split at hv
  · obtain ⟨more, visits, times⟩ := ((e.endsIn_iff now _).mpr rfl).adds
    rw [List.mem_reverse, visits] at hv
    rcases List.mem_append.mp hv with taken | before
    · exact times v taken
    · cases before
  · cases hv

theorem mem_liveThreads {t : Thread} : t ∈ e.liveThreads ↔ t ∈ e.threads ∧ t.finished = false := by
  simp [liveThreads]

theorem isLive_iff {id : Nat} :
    e.isLive id = true ↔ ∃ t ∈ e.threads, t.id = id ∧ t.finished = false := by
  simp [isLive]

/-- How a tick shares its steps among the threads that are unfinished at its beginning. -/
structure RoundRobin (e : Engine) (now : Nat) : Prop where
  only : ∀ v ∈ e.visits (.tick now), ∃ t ∈ e.liveThreads, t.id = v.thread.id
  spawned : ∀ t ∈ e.created (.tick now), turns (e.visits (.tick now)) t.id = 0
  even : ∀ t ∈ e.liveThreads, ∀ u ∈ e.liveThreads, t.id < u.id →
    (e.tick now).1.isLive t.id = true → (e.tick now).1.isLive u.id = true →
    turns (e.visits (.tick now)) t.id = turns (e.visits (.tick now)) u.id ∨
      turns (e.visits (.tick now)) t.id = turns (e.visits (.tick now)) u.id + 1
  each : e.liveThreads.length ≤ e.limits.maxStepsPerTick →
    ∀ t ∈ e.liveThreads, 0 < turns (e.visits (.tick now)) t.id

end Engine

section Reached

variable {l : Limits} {Loads : Program → Prop} {h : List Visit} {e : Engine} {now : Nat}

theorem Reached.openPass_fair (r : Reached l Loads h e) (running : e.running = true) (now : Nat) :
    (e.openPass now).Fair l Loads h (e.liveThreads.map Thread.id) e.threads.length 0 0 where
  sound := ⟨by simpa [Engine.openPass] using r.beginTick now, fun _ => by
    simpa [Engine.openPass] using running⟩
  known id hid := by
    obtain ⟨t, ht, rfl⟩ := List.mem_map.mp hid
    simpa [Engine.openPass] using r.ordered.bounded t (Engine.mem_liveThreads.mp ht).1
  due t ht unfinished := by
    have older := r.aged.beginTick now t ht
    have there : t ∈ e.threads := by simpa [Engine.openPass] using ht
    have mem : t.id ∈ e.liveThreads.map Thread.id :=
      List.mem_map_of_mem (Engine.mem_liveThreads.mpr ⟨there, unfinished⟩)
    exact ⟨fun _ => older, fun _ => mem⟩
  only v hv := by cases hv
  even j t _ _ _ := by simp [Engine.openPass, turns]
  beyond j t behind listed := by
    have inside := (List.getElem?_eq_some_iff.mp listed).1
    simp only [Engine.openPass, Engine.beginTick_threads] at inside
    omega

theorem Reached.served (r : Reached l Loads h e) (running : e.running = true)
    (goes : (e.tickPass now).engine.running = true) :
    (e.tickPass now).Served l Loads h (e.liveThreads.map Thread.id) :=
  ((e.endsIn_iff now _).mpr rfl).served goes fun _ =>
    ⟨_, _, _, r.openPass_fair running now, fun _ => rfl⟩

theorem Reached.stepped (r : Reached l Loads h e) (continued : (e.tick now).2 = .continued)
    (enough : e.liveThreads.length ≤ e.limits.maxStepsPerTick) :
    ∀ t ∈ e.liveThreads, 0 < turns (e.visits (.tick now)) t.id := by
  obtain ⟨running, goes, visits, _⟩ := Engine.tick_continued continued
  have ends := (e.endsIn_iff now _).mpr rfl
  have live : (e.openPass now).engine.liveThreads = e.liveThreads := by
    simp [Engine.openPass, Engine.liveThreads]
  rw [visits, ← live]
  intro t ht
  rw [turns_reverse]
  exact ends.sweeps rfl (by simpa [Engine.openPass] using running) (live ▸ enough)
    (r.aged.beginTick now) goes t ht

theorem Engine.Ordered.position_lt (ordered : e.Ordered) {i j : Nat} {t u : Thread}
    (hi : e.threads[i]? = some t) (hj : e.threads[j]? = some u) (earlier : t.id < u.id) :
    i < j := by
  by_contra behind
  rcases Nat.lt_or_eq_of_le (Nat.le_of_not_lt behind) with less | rfl
  · obtain ⟨inside, rfl⟩ := List.getElem?_eq_some_iff.mp hi
    obtain ⟨inside', rfl⟩ := List.getElem?_eq_some_iff.mp hj
    have increasing := List.pairwise_iff_getElem.mp (List.pairwise_map.mp ordered.increasing)
    have later := increasing j i inside' inside less
    omega
  · obtain rfl := Option.some.inj (hi.symm.trans hj)
    exact Nat.lt_irrefl _ earlier

theorem Engine.Lineage.created_ne {born : List Thread} (lineage : e.Lineage born) {t u : Thread}
    (old : t ∈ e.threads) (new : u ∈ e.created (.tick now)) : t.id ≠ u.id := by
  have distinct : ((born ++ e.created (.tick now)).map Thread.id).Nodup := by
    rw [(lineage.tick now).numbers]
    exact List.nodup_range'
  rw [List.map_append] at distinct
  have known : t.id ∈ born.map Thread.id := by
    have stem := lineage.stems.subset (List.mem_map_of_mem (f := Thread.birth) old)
    obtain ⟨u, hu, same⟩ := List.mem_map.mp stem
    exact List.mem_map.mpr ⟨u, hu, congrArg Prod.fst same⟩
  exact fun same => (List.nodup_append.mp distinct).2.2 t.id known u.id
    (List.mem_map_of_mem new) same

/-- Of two threads that are left, the older one is at most one turn ahead. -/
theorem Pass.Fair.even_turns {who : List Nat} {n k i : Nat} {p : Pass}
    (fair : p.Fair l Loads h who n k i) {a b : Nat} (ha : a ∈ who) (hb : b ∈ who)
    (earlier : a < b) (live : p.engine.isLive a = true) (live' : p.engine.isLive b = true) :
    turns p.visits a = turns p.visits b ∨ turns p.visits a = turns p.visits b + 1 := by
  obtain ⟨t, ht, rfl, unfinished⟩ := Engine.isLive_iff.mp live
  obtain ⟨u, hu, rfl, unfinished'⟩ := Engine.isLive_iff.mp live'
  obtain ⟨j, listed⟩ := List.mem_iff_getElem?.mp ht
  obtain ⟨j', listed'⟩ := List.mem_iff_getElem?.mp hu
  have before : j < j' := fair.sound.reached.ordered.position_lt listed listed' earlier
  rw [fair.even j t listed unfinished ha, fair.even j' u listed' unfinished' hb]
  split
  · split
    · exact Or.inl rfl
    · exact Or.inr rfl
  · rw [if_neg (by omega)]
    exact Or.inl rfl

end Reached

/-- In every run, a tick after which the run goes on has stepped only threads that were unfinished
at its beginning, and none that it has created. Of two of them that are still unfinished at its end,
the one created earlier was stepped as often as the other one, or once more. Each of them was
stepped if there were no more of them than a tick has steps. -/
theorem ticks_are_round_robin (l : Limits) (ops : List Engine.Operation) (now : Nat) :
    let e := ({ limits := l } : Engine).performAll ops
    (e.tick now).2 = .continued → e.RoundRobin now := by
  intro e continued
  have reached := Reached.run l ops
  obtain ⟨running, goes, visits, after⟩ := Engine.tick_continued continued
  obtain ⟨n, k, i, fair, _⟩ := reached.served running goes
  have only : ∀ v ∈ e.visits (.tick now), ∃ t ∈ e.liveThreads, t.id = v.thread.id := by
    intro v hv
    rw [visits, List.mem_reverse] at hv
    exact List.mem_map.mp (fair.only v hv)
  refine ⟨only, ?_, ?_, fun enough => reached.stepped continued enough⟩
  · intro t new
    apply List.countP_eq_zero.mpr
    intro v hv
    obtain ⟨u, live, same⟩ := only v hv
    have other := (Engine.Lineage.run l ops).created_ne (Engine.mem_liveThreads.mp live).1 new
    simpa [← same] using other
  · intro t ht u hu earlier live live'
    rw [after] at live live'
    rw [visits, turns_reverse, turns_reverse]
    exact fair.even_turns (List.mem_map_of_mem ht) (List.mem_map_of_mem hu) earlier live live'

/-- Two endless scripts, one of which starts a handler first. -/
def Program.endlessPair : Program where
  scripts := [⟨"a", [.forever "" []]⟩,
    ⟨"b", [.simple "" (.broadcast (.str "go") false), .forever "" []]⟩]
  handlers := .ofList [("go", [⟨"c", [.forever "" []]⟩])]

/-- Five steps for two threads: three for the older one and two for the other one, and none for the
handler. -/
theorem ticks_are_round_robin_endlessPair :
    let e := ({ limits := { maxStepsPerTick := 5 } } : Engine).performAll
      [.load .endlessPair, .bind {}, .start 0]
    (e.tick 1).2 = .continued ∧ e.RoundRobin 1 ∧
    (e.liveThreads.map fun t => turns (e.visits (.tick 1)) t.id) = [3, 2] ∧
    (e.created (.tick 1)).map Thread.id = [3] := by
  intro e
  have continued : (e.tick 1).2 = .continued := by decide
  exact ⟨continued, ticks_are_round_robin _ _ 1 continued, by decide, by decide⟩

end BlockStage
