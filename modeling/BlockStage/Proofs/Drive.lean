import Mathlib.Algebra.Order.Floor.Div
import BlockStage.Proofs.RoundRobin
import BlockStage.Proofs.RunawayGuard
import BlockStage.Proofs.Ticks
import BlockStage.Session.Drive

/-! # Simulated drives

A drive ticks a session frame after frame until the run is over or the time limit is reached.
`Drives` says so without a bound on the frames. Where time passes between frames, the limit bounds
them. Where none passes, no second of operations ever ends, and every tick that the run survives has
counted an operation, so the ceiling of the operations bounds the frames.
-/
namespace BlockStage

/-! ## Ticks that the run survives -/

namespace Pass

variable {dt : Float} {p : Pass}

theorem round_takes (going : p.ended = false) (running : p.engine.running = true)
    (left : p.left ≠ 0) {t : Thread} (first : p.engine.threads[0]? = some t)
    (unfinished : t.finished = false) (older : t.bornTick < p.engine.tickCount)
    (runs : (p.round dt).engine.running = true) : (p.round dt).visits ≠ [] := by
  have inside : 0 < p.engine.threads.length := (List.getElem?_eq_some_iff.mp first).1
  obtain ⟨cut, whole⟩ := round_induction dt
    (I := fun i q => if i = 0 then q = { p with progressed := false } else q.visits ≠ [])
    (E := fun q => q.engine.running = true → q.visits ≠ []) going rfl (fun i q _ open' before => by
      cases i with
      | zero =>
        obtain rfl : q = { p with progressed := false } := before
        have turn : Turn dt { p with progressed := false } 0 _ := turn_of_going open' running 0
        generalize Pass.turn dt { p with progressed := false } 0 = r at turn ⊢
        cases turn with
        | skipped idle => exact absurd (idle t first unfinished) (by simpa using older)
        | spent none => exact absurd none left
        | exceeded =>
          refine ⟨fun _ goes => ?_, fun open' => ?_⟩
          · cases goes
          · cases open'
        | stepped => exact ⟨fun _ _ => List.cons_ne_nil _ _, fun _ => List.cons_ne_nil _ _⟩
      | succ i =>
        obtain ⟨more, visits, _⟩ := turn_adds q dt (i + 1)
        have taken : (q.turn dt (i + 1)).visits ≠ [] := by
          rw [visits]
          exact List.append_ne_nil_of_right_ne_nil _ before
        exact ⟨fun _ _ => taken, fun _ => taken⟩)
  cases status : (p.round dt).ended with
  | true => exact cut status runs
  | false =>
    have taken := whole status
    rwa [if_neg (Nat.ne_of_gt inside)] at taken

/-- A tick with a step left takes one, unless it ends the run. -/
theorem EndsIn.takes {q : Pass} (ends : EndsIn dt p q) (going : p.ended = false)
    (running : p.engine.running = true) (left : p.left ≠ 0)
    (older : ∀ t ∈ p.engine.threads, t.bornTick < p.engine.tickCount)
    (runs : q.engine.running = true) : q.visits ≠ [] := by
  have first (nonempty : p.engine.liveThreads ≠ [])
      (goes : (p.pruned.round dt).engine.running = true) : (p.pruned.round dt).visits ≠ [] := by
    obtain ⟨t, ts, live⟩ := List.exists_cons_of_ne_nil nonempty
    have head : t ∈ p.engine.liveThreads := by
      rw [live]
      exact List.mem_cons_self
    obtain ⟨there, unfinished⟩ := Engine.mem_liveThreads.mp head
    have listed : p.pruned.engine.threads[0]? = some t := by
      change p.engine.liveThreads[0]? = _
      rw [live]
      rfl
    exact round_takes (p := p.pruned) going running left listed unfinished (older t there) goes
  cases ends with
  | closed closed => exact absurd ⟨going, running, left⟩ closed
  | finished => cases runs
  | still _ some => exact first some runs
  | again _ some _ rest =>
    obtain ⟨more, visits, _⟩ := rest.adds
    rw [visits]
    exact List.append_ne_nil_of_right_ne_nil _ (first some (rest.running_of runs))

end Pass

namespace Engine

variable {l : Limits} {e : Engine}

theorem Aged.keeps : Keeps Aged where
  begins _ now h := fun t ht => Nat.le_of_lt (h.beginTick now t ht)
  prunes _ h := h.prune
  counts _ h := h
  requests _ h := h
  steps _ due h _ := h.after due

/-- When a tick has begun, the second that is counted has not passed, and the counter goes on if it
had not passed before. -/
theorem beginTick_window (e : Engine) (now : Nat) :
    now - (e.beginTick now).windowStart < Time.nanosPerSecond ∧
      (now - e.windowStart < Time.nanosPerSecond →
        (e.beginTick now).opsThisSecond = e.opsThisSecond) := by
  have second : 0 < Time.nanosPerSecond := by decide
  unfold beginTick
  dsimp only
  split
  next passed =>
    exact ⟨by simpa using second, fun inside => absurd passed (Nat.not_le_of_lt inside)⟩
  next inside => exact ⟨Nat.lt_of_not_le inside, fun _ => rfl⟩

theorem Coherent.aged (coherent : e.Coherent) (stopped : e.running = false) : e.Aged := by
  have threads := coherent.threads
  rw [stopped] at threads
  have none : e.threads = [] := by simpa using threads
  simp [Aged, none]

/-- What holds of the engine of a session between operations. -/
structure Steady (l : Limits) (e : Engine) : Prop where
  coherent : e.Coherent
  measured : e.Measured l
  aged : e.Aged

namespace Steady

theorem perform (h : e.Steady l) (op : Operation) : (e.perform op).Steady l := by
  refine ⟨h.coherent.perform op, h.measured.perform op, ?_⟩
  cases op with
  | load p => exact h.aged
  | bind s => exact h.aged
  | start now => exact h.aged.start now
  | stop => exact (Coherent.stop e).aged rfl
  | tick now =>
    change (e.tick now).1.Aged
    cases running : e.running with
    | false =>
      rw [tick_of_not_running running]
      exact h.aged
    | true =>
      rcases tick_stays Aged.keeps h.aged running now with ⟨_, aged⟩ | ⟨stopped, _⟩
      · exact aged
      · exact (h.coherent.tick now).aged stopped

theorem performAll (h : e.Steady l) (ops : List Operation) : (e.performAll ops).Steady l := by
  induction ops generalizing e with
  | nil => exact h
  | cons op ops ih => exact ih (h.perform op)

theorem quiet (h : e.Steady l) (sprite : Option Sprite) :
    ({ e with sprite := sprite, signals := [] } : Engine).Steady l where
  coherent := ⟨h.coherent.pending, h.coherent.threads, fun _ => Or.inl rfl⟩
  measured := ⟨h.measured.limits, h.measured.ceiling, h.measured.counter⟩
  aged := h.aged

theorem tick_counts (h : e.Steady l) (some : 1 ≤ l.maxStepsPerTick) {now : Nat}
    (running : e.running = true) (goes : (e.tick now).1.running = true) :
    (e.tick now).1.windowStart = (e.beginTick now).windowStart ∧
      (e.beginTick now).opsThisSecond < (e.tick now).1.opsThisSecond := by
  obtain ⟨visits, ⟨runs, same⟩ | ⟨stopped, same⟩⟩ :=
    tick_of_running running (h.coherent.pending.trans running) now
  · have course := (tickPass_ends running now).course runs
    have taken : (e.tickPass now).visits ≠ [] := by
      refine ((e.endsIn_iff now _).mpr rfl).takes rfl (by simpa [openPass] using running) ?_
        (h.aged.beginTick now) runs
      rw [openPass, h.measured.limits]
      exact Nat.ne_of_gt some
    have ops := course.opsThisSecond
    have steps := List.length_pos_of_ne_nil taken
    rw [List.length_reverse] at ops
    rw [same]
    refine ⟨course.windowStart, ?_⟩
    dsimp only
    omega
  · rw [same, stopped] at goes
    cases goes

end Steady

end Engine

/-! ## Sessions -/

namespace Session

/-- The sessions that the actions of an editor and ticks at any times lead to. A run of what is
saved is a run of the graph that it is read as. -/
inductive Reached (settings : Settings) : Session → Prop where
  | new : Reached settings (.new settings)
  | run {s} (now : Nat) (g : Workspace.Graph) : Reached settings s → Reached settings (s.run now g)
  | stop {s} : Reached settings s → Reached settings s.stop
  | reset {s} : Reached settings s → Reached settings s.reset
  | save {s} (store : MemoryStore) (date : Timestamp) (v : Json.Value) :
      Reached settings s → Reached settings (s.save store date v).1
  | load {s s' v} (store : MemoryStore) (loaded : s.load store = .ok (s', v)) :
      Reached settings s → Reached settings s'
  | tick {s} (now : Nat) : Reached settings s → Reached settings (s.tick now).1

variable {l : Limits} {s : Session}

theorem tick_steady (h : s.engine.Steady l) (now : Nat) : (s.tick now).1.engine.Steady l :=
  (h.perform (.tick now)).quiet _

theorem load_engine {s' : Session} {store : MemoryStore} {v : Option Json.Value}
    (loaded : s.load store = .ok (s', v)) : s'.engine = s.engine := by
  unfold load noteLoaded at loaded
  split at loaded
  · cases loaded
  · cases loaded
    rfl
  · cases loaded
    rfl

theorem Reached.steady {settings : Settings} (r : Reached settings s) :
    s.engine.Steady settings.engine := by
  induction r with
  | new => exact ⟨⟨rfl, rfl, fun _ => Or.inl rfl⟩, ⟨rfl, fun _ => Nat.zero_le _, Nat.zero_le _⟩,
      by simp [Engine.Aged, Session.new]⟩
  | @run s now g _ ih =>
    exact (ih.performAll [.stop, .load g.compile, .bind s.sprite, .start now]).quiet _
  | stop _ ih => exact (ih.perform .stop).quiet _
  | reset _ ih => exact (ih.perform .stop).quiet _
  | save _ _ _ _ ih => exact ih
  | load _ loaded _ ih => exact load_engine loaded ▸ ih
  | tick now _ ih => exact tick_steady ih now

/-! ## Drives -/

/-- The drive goes on: a tick has been asked for, and there is time left. -/
def Progress.Goes (limit : Nat) (p : Progress) : Prop :=
  p.session.engine.pending = true ∧ p.elapsed < limit

/-- The frames of a drive, without a bound on their number. -/
inductive Drives (start frame limit : Nat) : Progress → Progress → Prop where
  | ended {p} (stays : ¬ p.Goes limit) : Drives start frame limit p p
  | next {p q} (goes : p.Goes limit) (rest : Drives start frame limit (p.advance start frame) q) :
      Drives start frame limit p q

variable {start frame limit : Nat} {p q : Progress}

theorem Drives.unique {q' : Progress} (h : Drives start frame limit p q)
    (h' : Drives start frame limit p q') : q = q' := by
  induction h with
  | ended stays =>
    cases h' with
    | ended => rfl
    | next goes => exact absurd goes stays
  | next goes _ ih =>
    cases h' with
    | ended stays => exact absurd goes stays
    | next _ rest => exact ih rest

/-- How a drive that began with `s` has come to `p`. -/
structure Driven (l : Limits) (s : Session) (start frame limit : Nat) (p : Progress) : Prop where
  steady : p.session.engine.Steady l
  elapsed : p.elapsed = p.frames * frame
  bound : p.frames ≤ s.frameBound frame limit
  /-- On a clock that stands still, the frames have been counted in one second. -/
  frozen : frame = 0 → p.session.engine.running = true →
    p.frames ≤ p.session.engine.opsThisSecond ∧
    (0 < p.frames → start - p.session.engine.windowStart < Time.nanosPerSecond)

namespace Driven

theorem early (h : Driven l s start frame limit p) (limits : s.engine.limits = l)
    (goes : p.Goes limit) : p.frames < s.frameBound frame limit := by
  obtain ⟨asked, time⟩ := goes
  unfold frameBound
  split
  next still =>
    have running := h.steady.coherent.pending.symm.trans asked
    have counted := (h.frozen still running).1
    have ceiling := h.steady.measured.ceiling running
    rw [limits]
    omega
  next moving =>
    have positive : 0 < frame := Nat.pos_of_ne_zero moving
    rw [h.elapsed] at time
    rw [← Nat.ceilDiv_eq_add_pred_div]
    by_contra reached
    have enough := (ceilDiv_le_iff_le_mul positive).mp (Nat.le_of_not_lt reached)
    rw [Nat.mul_comm] at enough
    omega

theorem advance (h : Driven l s start frame limit p) (limits : s.engine.limits = l)
    (some : 1 ≤ l.maxStepsPerTick) (goes : p.Goes limit) :
    Driven l s start frame limit (p.advance start frame) where
  steady := tick_steady h.steady _
  elapsed := by
    simp only [Progress.advance, h.elapsed, Nat.succ_mul]
  bound := h.early limits goes
  frozen := by
    intro still runs
    have running := h.steady.coherent.pending.symm.trans goes.1
    obtain ⟨counted, inside⟩ := h.frozen still running
    have elapsed : p.elapsed + frame = 0 := by rw [h.elapsed, still]; rfl
    simp only [Progress.advance, elapsed, Nat.add_zero] at runs ⊢
    obtain ⟨window, less⟩ := h.steady.tick_counts some running runs
    obtain ⟨fresh, kept⟩ := p.session.engine.beginTick_window start
    change p.frames + 1 ≤ (p.session.engine.tick start).1.opsThisSecond ∧
      (_ → start - (p.session.engine.tick start).1.windowStart < _)
    refine ⟨?_, fun _ => window ▸ fresh⟩
    rcases Nat.eq_zero_or_pos p.frames with first | later
    · omega
    · rw [kept (inside later)] at less
      omega

/-- As many frames as the bound allows are enough. -/
theorem simulate (h : Driven l s start frame limit p) (limits : s.engine.limits = l)
    (some : 1 ≤ l.maxStepsPerTick) {fuel : Nat}
    (enough : s.frameBound frame limit ≤ p.frames + fuel) :
    let q := Session.simulate start frame limit fuel p
    Drives start frame limit p q ∧ Driven l s start frame limit q ∧ ¬ q.Goes limit := by
  induction fuel generalizing p with
  | zero =>
    have stays : ¬ p.Goes limit := by
      intro goes
      have early := h.early limits goes
      omega
    exact ⟨.ended stays, h, stays⟩
  | succ fuel ih =>
    unfold Session.simulate
    split
    next goes =>
      have goes : p.Goes limit := by simpa [Progress.Goes] using goes
      obtain ⟨rest, driven, stays⟩ := ih (h.advance limits some goes)
        (by simp only [Progress.advance]; omega)
      exact ⟨.next goes rest, driven, stays⟩
    next stays =>
      have stays : ¬ p.Goes limit := by simpa [Progress.Goes] using stays
      exact ⟨.ended stays, h, stays⟩

end Driven

/-- How a simulated drive ends. -/
structure DriveEnds (s : Session) (start frame limit : Nat) (r : Session × RunSummary) : Prop where
  /-- Without a bound on its frames, the drive comes to this end and to no other one. -/
  ends : ∀ q, Drives start frame limit { session := s } q ↔
    q = { session := r.1, frames := r.2.frames, elapsed := r.2.elapsed }
  elapsed : r.2.elapsed = r.2.frames * frame
  finished : r.2.finished = true ↔ r.1.engine.running = false
  time : r.2.finished = true ∨ limit ≤ r.2.elapsed
  moving : 0 < frame → r.2.frames ≤ limit ⌈/⌉ frame ∧
    (r.2.finished = false → r.2.frames = limit ⌈/⌉ frame)
  frozen : frame = 0 → r.2.frames ≤ s.engine.limits.maxOpsPerSecond + 1 ∧
    (0 < limit → r.2.finished = true)

/-- Whatever state a session has come to, a simulated drive of it ends, in time and with its time
accounted for, if a tick has a step to take. -/
theorem simulated_drive_ends {settings : Settings} (some : 1 ≤ settings.engine.maxStepsPerTick)
    {s : Session} (r : Reached settings s) (start frame limit : Nat) :
    s.DriveEnds start frame limit (s.driveSimulated start frame limit) := by
  have steady := r.steady
  have limits := steady.measured.limits
  have begun : Driven settings.engine s start frame limit { session := s } :=
    ⟨steady, (Nat.zero_mul frame).symm, Nat.zero_le _,
      fun _ _ => ⟨Nat.zero_le _, fun later => absurd later (Nat.lt_irrefl 0)⟩⟩
  obtain ⟨drives, driven, stays⟩ :=
    begun.simulate limits some (Nat.le_add_left (s.frameBound frame limit) 0)
  unfold driveSimulated
  dsimp only
  generalize simulate start frame limit (s.frameBound frame limit) { session := s } = q
    at drives driven stays
  have rest : q.summary.finished = true ∨ limit ≤ q.elapsed := by
    by_cases asked : q.session.engine.pending = true
    · exact Or.inr (Nat.le_of_not_lt fun time => stays ⟨asked, time⟩)
    · rw [driven.steady.coherent.pending, Bool.not_eq_true] at asked
      exact Or.inl (by simp [Progress.summary, asked])
  refine ⟨fun q' => ⟨fun drives' => drives'.unique drives, fun same => same ▸ drives⟩,
    driven.elapsed, by simp [Progress.summary], rest, fun positive => ?_, fun still => ?_⟩
  · have bound := driven.bound
    rw [frameBound, if_neg (Nat.ne_of_gt positive), ← Nat.ceilDiv_eq_add_pred_div] at bound
    refine ⟨bound, fun going => Nat.le_antisymm bound ?_⟩
    rcases rest with finished | late
    · rw [going] at finished
      cases finished
    · rw [driven.elapsed, Nat.mul_comm] at late
      exact (ceilDiv_le_iff_le_mul positive).mpr late
  · have bound := driven.bound
    rw [frameBound, if_pos still] at bound
    refine ⟨bound, fun positive => ?_⟩
    rcases rest with finished | late
    · exact finished
    · rw [driven.elapsed, still, Nat.mul_zero] at late
      exact absurd positive (Nat.not_lt_of_le late)

def idleForever : Workspace.Graph where
  nodes := #[{ kind := "bp_start", id := "s", fields := [], next := some 1 },
    { kind := "bp_forever", id := "f", fields := [] }]
  topLevel := [0]

/-- At a rate so high that no time passes between frames, three operations of a second are three
frames, and the fourth one ends the run. At a lower rate the time limit ends the drive. -/
theorem simulated_drive_ends_idleForever :
    let settings : Settings :=
      { engine := { maxOpsPerSecond := 3, maxStepsPerTick := 1 },
        runner := { frameRate := 4294967295 } }
    let s := (Session.new settings).run 0 idleForever
    let frame := settings.runner.frameInterval
    settings.validate = .ok settings ∧ 1 ≤ settings.engine.maxStepsPerTick ∧ Reached settings s ∧
    s.DriveEnds 0 frame 40000000 (s.driveSimulated 0 frame 40000000) ∧
    (s.driveSimulated 0 frame 40000000).2 = { frames := 4, elapsed := 0, finished := true } ∧
    (s.driveSimulated 0 16000000 40000000).2 =
      { frames := 3, elapsed := 48000000, finished := false } := by
  intro settings s frame
  have some : 1 ≤ settings.engine.maxStepsPerTick := Nat.le_refl 1
  have reached : Reached settings s := Reached.new.run 0 idleForever
  exact ⟨rfl, some, reached, simulated_drive_ends some reached 0 frame 40000000, by decide +kernel,
    by decide +kernel⟩

end Session

end BlockStage
