import BlockStage.Lint
import BlockStage.Proofs.Places

/-! # Commands behind those that control does not pass

The rule for unreachable commands holds that control passes no `forever`, `break` or `continue`. A
`break` leaves a `forever`, and outside of loops `break` and `continue` are skipped, so commands
that the rule reports can be stepped. `Command.holds` says when a command is really not passed;
behind such a command, nothing of the same list is stepped in any run.
-/
namespace BlockStage

open Structured (inLoop fromLoop pass close fromLoop_eq_nil_iff)

namespace Command

mutual

/-- The command may leave the nearest loop around it. -/
def leaves : Command → Bool
  | .simple _ .breakLoop => true
  | .ifThen _ _ body => anyLeaves body
  | .ifElse _ _ yes no => anyLeaves yes || anyLeaves no
  | _ => false

def anyLeaves : List Command → Bool
  | [] => false
  | c :: cs => c.leaves || anyLeaves cs

end

/-- Control never goes on behind the command, given whether a loop surrounds it. -/
def holds (b : Bool) : Command → Bool
  | .simple _ .stopAll | .simple _ .stopThis => true
  | .simple _ .breakLoop | .simple _ .continueLoop => b
  | .forever _ body => !anyLeaves body
  | _ => false

theorem anyLeaves_of_mem {c : Command} {cs : List Command} (mem : c ∈ cs)
    (leaves : c.leaves = true) : anyLeaves cs = true := by
  induction cs with
  | nil => cases mem
  | cons d cs ih =>
    rw [anyLeaves, Bool.or_eq_true]
    rcases List.mem_cons.mp mem with rfl | mem
    · exact Or.inl leaves
    · exact Or.inr (ih mem)

end Command

theorem Opens.leaves {c : Command} {body : List Command} (opens : Opens c .seq body)
    (inner : Command.anyLeaves body = true) : c.leaves = true := by
  cases opens <;> simp [Command.leaves, inner]

theorem Opens.holds_of_ne_forever {c : Command} {kind : FrameKind} {body : List Command} {b : Bool}
    (opens : Opens c kind body) (other : kind ≠ .forever) : c.holds b = false := by
  cases opens with
  | forever => exact absurd rfl other
  | _ => rfl

theorem Stack.anyLeaves {Root : List Command → Prop} {frames fs : List Frame} {f g : Frame}
    {gs : List Frame} {c : Command} (stack : Stack Root frames) (top : frames = g :: gs)
    (cur : g.current? = some c) (leaves : c.leaves = true) (inside : fromLoop frames = f :: fs) :
    Command.anyLeaves f.commands = true := by
  induction stack generalizing g gs c with
  | root kind _ =>
    rw [Structured.fromLoop_seq kind] at inside
    cases inside
  | @push h k ks carries below ih =>
    obtain ⟨rfl, rfl⟩ := List.cons.inj top
    have here : Command.anyLeaves h.commands = true :=
      Command.anyLeaves_of_mem (List.mem_of_getElem? cur) leaves
    obtain ⟨d, cur', opens⟩ := carries
    cases kind : h.kind with
    | seq =>
      rw [kind] at opens
      rw [Structured.fromLoop_seq kind] at inside
      exact ih rfl cur' (opens.leaves here) inside
    | forever =>
      rw [Structured.fromLoop_loop (by rw [kind]; rfl)] at inside
      obtain ⟨rfl, _⟩ := List.cons.inj inside
      exact here
    | counted i n =>
      rw [Structured.fromLoop_loop (by rw [kind]; rfl)] at inside
      obtain ⟨rfl, _⟩ := List.cons.inj inside
      exact here

/-- No command that is held stands before the position of a frame. -/
def Passable : List Frame → Prop
  | [] => True
  | f :: fs => (∀ k c, k < f.ip → f.commands[k]? = some c → c.holds (inLoop (f :: fs)) = false) ∧
      Passable fs

/-- All that a step does to the frames of a thread. -/
inductive Shift : List Frame → List Frame → Prop where
  | still {frames} : Shift frames frames
  | gone {frames} : Shift frames []
  | passed {f fs c} (cur : f.current? = some c) (free : c.holds (inLoop (f :: fs)) = false) :
      Shift (f :: fs) (f.advance :: fs)
  | entered {f fs kind body} : Shift (f :: fs) ({ kind := kind, commands := body } :: f :: fs)
  | closed {frames} : Shift frames (close frames)
  | broke {g gs c f fs} (cur : g.current? = some c) (leaves : c.leaves = true)
      (inside : fromLoop (g :: gs) = f :: fs) : Shift (g :: gs) (pass fs)
  | continued {frames f fs} (inside : fromLoop frames = f :: fs) : Shift frames (close (f :: fs))

namespace Passable

variable {Root : List Command → Prop} {frames fs : List Frame} {f : Frame}

theorem fresh (atStart : f.ip = 0) (h : Passable fs) : Passable (f :: fs) :=
  ⟨fun _ _ before _ => absurd before (by omega), h⟩

theorem advance {c : Command} (h : Passable (f :: fs)) (cur : f.current? = some c)
    (free : c.holds (inLoop (f :: fs)) = false) : Passable (f.advance :: fs) := by
  refine ⟨fun k d before hd => ?_, h.2⟩
  rcases Nat.lt_succ_iff_lt_or_eq.mp before with before | rfl
  · exact h.1 k d before hd
  · obtain rfl := Option.some.inj (cur.symm.trans hd)
    exact free

theorem fromLoop (h : Passable frames) : Passable (fromLoop frames) := by
  induction frames with
  | nil => exact h
  | cons f fs ih =>
    unfold Structured.fromLoop
    rw [List.dropWhile_cons]
    split
    · exact ih h.2
    · exact h

/-- A list is left behind a command that is not held: only a `forever` can be, and it is not left
at the end of its list. -/
theorem pass_of_carries (h : Passable fs) (stack : Stack Root (f :: fs))
    (free : ∀ c b, Opens c f.kind f.commands → c.holds b = false) : Passable (pass fs) := by
  cases stack with
  | root => exact h
  | push carries _ =>
    obtain ⟨c, cur, opens⟩ := carries
    exact h.advance cur (free c _ opens)

theorem close (h : Passable frames) (stack : Stack Root frames) : Passable (close frames) := by
  cases frames with
  | nil => exact h
  | cons f fs =>
    have behind (other : f.kind ≠ .forever) : Passable (pass fs) :=
      pass_of_carries h.2 stack fun _ _ opens => opens.holds_of_ne_forever other
    simp only [Structured.close]
    split
    next kind => exact behind (by simp [kind])
    · exact .fresh rfl h.2
    next kind =>
      split
      · exact .fresh rfl h.2
      · exact behind (by simp [kind])

end Passable

theorem Shift.passable {Root : List Command → Prop} {frames frames' : List Frame}
    (shift : Shift frames frames') (stack : Stack Root frames) (h : Passable frames) :
    Passable frames' := by
  cases shift with
  | still => exact h
  | gone => trivial
  | passed cur free => exact h.advance cur free
  | entered => exact .fresh rfl h
  | closed => exact h.close stack
  | @broke _ _ _ f _ cur leaves inside =>
    have outer : Passable (f :: _) := inside ▸ h.fromLoop
    have inner := stack.anyLeaves rfl cur leaves inside
    apply outer.2.pass_of_carries (stack.of_dropWhile inside)
    intro c b opens
    -- the loop contains a `break` of its own, so even a `forever` is not held
    cases opens' : f.kind with
    | forever =>
      rw [opens'] at opens
      cases opens
      simp [Command.holds, inner]
    | seq => exact opens.holds_of_ne_forever (by simp [opens'])
    | counted i n => exact opens.holds_of_ne_forever (by simp [opens'])
  | continued inside => exact Passable.close (inside ▸ h.fromLoop) (stack.of_dropWhile inside)

namespace Engine

variable {e : Engine} {t : Thread} {dt : Float} {f : Frame} {fs : List Frame}

theorem exists_loop (top : t.frames = f :: fs) (inside : inLoop (f :: fs) = true) :
    ∃ loop outer, fromLoop (f :: fs) = loop :: outer ∧ t.fromLoop = loop :: outer := by
  have nonempty : fromLoop (f :: fs) ≠ [] := by
    intro none
    rw [fromLoop_eq_nil_iff.mp none] at inside
    cases inside
  obtain ⟨loop, outer, found⟩ := List.exists_cons_of_ne_nil nonempty
  refine ⟨loop, outer, found, ?_⟩
  rw [Thread.fromLoop, top]
  exact found

/-- A command that is held is not passed. -/
theorem stepThread_shift_of_holds {c : Command} (top : t.frames = f :: fs)
    (cur : f.current? = some c) (held : c.holds (inLoop (f :: fs)) = true) :
    Shift (f :: fs) (e.stepThread t dt).2.1.frames := by
  rw [stepThread_command top cur]
  cases c with
  | forever id body =>
    simp only [stepCommand, settle, Thread.enter, top]
    exact .entered
  | simple id i =>
    cases i with
    | stopAll =>
      simp only [stepCommand, stepInstruction, settle, top]
      exact .still
    | stopThis => exact .gone
    | breakLoop =>
      obtain ⟨loop, outer, inside, found⟩ := exists_loop top held
      simp only [stepCommand, stepInstruction, stepBreak, found, settle, Thread.resume_frames]
      exact .broke cur rfl inside
    | continueLoop =>
      obtain ⟨loop, outer, inside, found⟩ := exists_loop top held
      simp only [stepCommand, stepInstruction, stepContinue, found, settle,
        Thread.finishBody_frames, Structured.close_moved]
      exact .continued inside
    | _ => cases held
  | _ => cases held

theorem Effect.shift {e' : Engine} {t' : Thread} {progress : Bool}
    (effect : Effect e t dt e' t' progress) {c : Command} (top : t.frames = f :: fs)
    (cur : f.current? = some c) (free : c.holds (inLoop (f :: fs)) = false) :
    Shift (f :: fs) t'.frames := by
  have moved : ∀ {u : Thread}, u.frames = f :: fs → Shift (f :: fs) u.advance.frames := by
    intro u top'
    rw [Thread.advance_frames, top']
    exact .passed cur free
  cases effect with
  | empty bare => rw [bare] at top; cases top
  | closed => rw [Thread.finishBody_frames, top]; exact .closed
  | passed => exact moved top
  | entered =>
    simp only [Thread.enter, top]
    exact .entered
  | acting => exact top ▸ .still
  | acted => exact moved top
  | sent => exact moved top
  | called => exact top ▸ .still
  | unheard => exact moved top
  | polled => exact top ▸ .still
  | resumed => exact moved top
  | broke cur' inside =>
    rw [Thread.fromLoop, top] at inside
    rw [Thread.resume_frames]
    rw [Thread.current_eq top] at cur'
    exact .broke cur' rfl inside
  | continued _ inside =>
    rw [Thread.fromLoop, top] at inside
    simp only [Thread.finishBody_frames, Structured.close_moved]
    exact .continued inside
  | ended => exact .gone
  | halted => exact top ▸ .still

theorem stepThread_shift (e : Engine) (t : Thread) (dt : Float) :
    Shift t.frames (e.stepThread t dt).2.1.frames := by
  cases top : t.frames with
  | nil =>
    simp only [stepThread, top]
    exact .gone
  | cons f fs =>
    cases cur : f.current? with
    | none =>
      simp only [stepThread, top, cur, Thread.finishBody_frames]
      exact .closed
    | some c =>
      by_cases held : c.holds (inLoop (f :: fs)) = true
      · exact stepThread_shift_of_holds top cur held
      · exact (stepThread_effect e t dt).shift top cur (by simpa using held)

end Engine

/-- In every run, all threads stand at positions that control can come to. -/
theorem Reached.passable {l : Limits} {Loads : Program → Prop} {h : List Visit} {e : Engine}
    (r : Reached l Loads h e) : ∀ t ∈ e.threads, Passable t.frames := by
  have started : ∀ {tick id : Nat} {scripts : List Script} {t : Thread},
      t ∈ Engine.startThreads tick id scripts → Passable t.frames := by
    intro tick id scripts t ht
    obtain ⟨s, _, _, _, _, rfl⟩ := Engine.mem_startThreads ht
    exact .fresh rfl trivial
  induction r using threadInduction with
  | fresh s => intro t ht; cases ht
  | idle _ _ threads _ ih => rwa [threads]
  | @start _ e now _ ih =>
    rcases e.start_cases now with ⟨same, _⟩ | ⟨p, _, threads, _⟩
    · rwa [same]
    · rw [threads]
      exact fun t ht => started ht
  | stop _ _ => intro t ht; cases ht
  | prune _ ih => exact fun t ht => ih t (List.mem_of_mem_filter ht)
  | step v due r ih =>
    obtain ⟨_, _, outcome⟩ := due.after_cases
    intro t ht
    cases outcome with
    | halted threads _ => rw [threads] at ht; cases ht
    | kept scripts _ threads _ =>
      rw [threads] at ht
      rcases List.mem_append.mp ht with old | new
      · rcases List.mem_or_eq_of_mem_set old with old | rfl
        · exact ih t old
        · have stack := (r.controlled.threads _ due.mem).stack_of_unfinished due.unfinished
          exact (v.engine.stepThread_shift v.thread v.dt).passable stack (ih _ due.mem)
      · exact started new

namespace Lint.Unreachable

/-- The rule reports the command `d` at a place of a program, since it stands behind `c`; whether a
loop surrounds them is `b`. -/
structure Reports (p : Program) (place : Place) (b : Bool) (c d : Command) : Prop where
  found : ∃ s before rest, p.roots[place.root]? = some s ∧
    Command.listAt? false s.commands place.way = some (b, before ++ c :: d :: rest) ∧
    place.index = before.length + 1 ∧ ∀ x ∈ before, isTerminator x = false
  terminator : isTerminator c = true

def finding (c d : Command) : Finding :=
  ⟨d.blockId, "unreachable: follows '" ++ c.name ++ "'", .warning, ruleId⟩

theorem firstUnreachable?_eq_some_iff {cs : List Command} {c d : Command} :
    firstUnreachable? cs = some (c, d) ↔ ∃ before rest, cs = before ++ c :: d :: rest ∧
      isTerminator c = true ∧ ∀ x ∈ before, isTerminator x = false := by
  induction cs with
  | nil => simp [firstUnreachable?]
  | cons x cs ih =>
    rw [firstUnreachable?]
    split
    next ends =>
      rw [Option.map_eq_some_iff]
      constructor
      · rintro ⟨y, head, same⟩
        obtain ⟨rfl, rfl⟩ := Prod.mk.inj same
        obtain ⟨rest, rfl⟩ := List.head?_eq_some_iff.mp head
        exact ⟨[], rest, rfl, ends, by simp⟩
      · rintro ⟨before, rest, split, ends', none⟩
        cases before with
        | nil =>
          obtain ⟨rfl, rfl⟩ := List.cons.inj split
          exact ⟨d, rfl, rfl⟩
        | cons y before =>
          obtain ⟨rfl, _⟩ := List.cons.inj split
          rw [none x List.mem_cons_self] at ends
          cases ends
    next open' =>
      rw [ih]
      constructor
      · rintro ⟨before, rest, rfl, ends, none⟩
        refine ⟨x :: before, rest, rfl, ends, fun y hy => ?_⟩
        rcases List.mem_cons.mp hy with rfl | hy
        · simpa using open'
        · exact none y hy
      · rintro ⟨before, rest, split, ends, none⟩
        cases before with
        | nil =>
          obtain ⟨rfl, _⟩ := List.cons.inj split
          exact absurd ends open'
        | cons y before =>
          obtain ⟨rfl, rfl⟩ := List.cons.inj split
          exact ⟨before, rest, rfl, ends, fun y hy => none y (List.mem_cons_of_mem _ hy)⟩

theorem mem_checkHere {cs : List Command} {f : Finding} :
    f ∈ checkHere cs ↔ ∃ c d, firstUnreachable? cs = some (c, d) ∧ f = finding c d := by
  unfold checkHere
  split
  next none => simp [none]
  next c d some => simp [some, finding]

theorem mem_checkInside {c : Command} {f : Finding} :
    f ∈ checkInside c ↔
      ∃ (n : Nat) (body : List Command), c.bodies[n]? = some body ∧ f ∈ checkList body := by
  have one : ∀ body : List Command, f ∈ checkList body ↔
      ∃ (n : Nat) (inner : List Command), [body][n]? = some inner ∧ f ∈ checkList inner := by
    intro body
    constructor
    · intro mem
      exact ⟨0, body, rfl, mem⟩
    · rintro ⟨n, inner, hn, mem⟩
      cases n <;> simp_all
  cases c with
  | simple id i => simp [checkInside, Command.bodies]
  | repeatTimes id times body => exact one body
  | forever id body => exact one body
  | ifThen id cond body => exact one body
  | ifElse id cond yes no =>
    have both : f ∈ checkInside (.ifElse id cond yes no) ↔
        f ∈ checkList yes ∨ f ∈ checkList no := by
      rw [checkInside, List.mem_append]
      rfl
    rw [both]
    constructor
    · rintro (mem | mem)
      · exact ⟨0, yes, rfl, mem⟩
      · exact ⟨1, no, rfl, mem⟩
    · rintro ⟨n, body, hn, mem⟩
      rcases Command.getElem?_pair hn with ⟨_, rfl⟩ | ⟨_, rfl⟩
      · exact Or.inl mem
      · exact Or.inr mem

theorem mem_checkAllInside {cs : List Command} {f : Finding} :
    f ∈ checkAllInside cs ↔ ∃ (i : Nat) (c : Command), cs[i]? = some c ∧ f ∈ checkInside c := by
  induction cs with
  | nil => simp [checkAllInside]
  | cons c cs ih =>
    rw [checkAllInside, List.mem_append, ih]
    constructor
    · rintro (mem | ⟨i, d, hd, mem⟩)
      · exact ⟨0, c, rfl, mem⟩
      · exact ⟨i + 1, d, hd, mem⟩
    · rintro ⟨i, d, hd, mem⟩
      cases i with
      | zero =>
        obtain rfl := Option.some.inj hd
        exact Or.inl mem
      | succ i => exact Or.inr ⟨i, d, hd, mem⟩

theorem mem_checkList_of_listAt {cs list : List Command} {way : Way} {b b' : Bool} {f : Finding}
    (found : Command.listAt? b cs way = some (b', list)) (mem : f ∈ checkHere list) :
    f ∈ checkList cs := by
  induction way generalizing b cs with
  | nil =>
    obtain ⟨_, rfl⟩ := Prod.mk.inj (Option.some.inj found)
    exact List.mem_append_left _ mem
  | cons step way ih =>
    unfold Command.listAt? at found
    split at found
    · cases found
    next c hc =>
      split at found
      · cases found
      next body hn =>
        refine List.mem_append_right _ (mem_checkAllInside.mpr ⟨_, c, hc, ?_⟩)
        exact mem_checkInside.mpr ⟨_, body, hn, ih found⟩

theorem sizeOf_lt_of_body {c : Command} {body : List Command} (inside : body ∈ c.bodies) :
    sizeOf body < sizeOf c := by
  cases c with
  | simple id i => cases inside
  | repeatTimes id times inner =>
    obtain rfl := List.mem_singleton.mp inside
    simp +arith
  | forever id inner =>
    obtain rfl := List.mem_singleton.mp inside
    simp +arith
  | ifThen id cond inner =>
    obtain rfl := List.mem_singleton.mp inside
    simp +arith
  | ifElse id cond yes no =>
    rcases List.mem_cons.mp inside with rfl | inside
    · simp +arith
    · obtain rfl := List.mem_singleton.mp inside
      simp +arith

theorem listAt_of_mem_checkList {cs : List Command} {f : Finding} (b : Bool)
    (mem : f ∈ checkList cs) :
    ∃ way b' list, Command.listAt? b cs way = some (b', list) ∧ f ∈ checkHere list := by
  rcases List.mem_append.mp mem with here | inside
  · exact ⟨[], b, cs, rfl, here⟩
  · obtain ⟨i, c, hc, inner⟩ := mem_checkAllInside.mp inside
    obtain ⟨n, body, hn, mem'⟩ := mem_checkInside.mp inner
    have smaller : sizeOf body < sizeOf cs :=
      (sizeOf_lt_of_body (List.mem_of_getElem? hn)).trans
        (List.sizeOf_lt_of_mem (List.mem_of_getElem? hc))
    obtain ⟨way, b', list, found, here⟩ := listAt_of_mem_checkList (b || c.isLoop) mem'
    exact ⟨(i, n) :: way, b', list, (Command.listAt?_cons hc hn way).trans found, here⟩
termination_by sizeOf cs

theorem mem_check_iff {p : Program} {f : Finding} :
    f ∈ rule.check p ↔ ∃ place b c d, Reports p place b c d ∧ f = finding c d := by
  simp only [rule, List.mem_flatMap]
  constructor
  · rintro ⟨s, hs, mem⟩
    obtain ⟨r, hr⟩ := List.mem_iff_getElem?.mp hs
    obtain ⟨way, b, list, found, here⟩ := listAt_of_mem_checkList false mem
    obtain ⟨c, d, first, rfl⟩ := mem_checkHere.mp here
    obtain ⟨before, rest, rfl, ends, none⟩ := firstUnreachable?_eq_some_iff.mp first
    exact ⟨⟨r, way, before.length + 1⟩, b, c, d,
      ⟨⟨s, before, rest, hr, found, rfl, none⟩, ends⟩, rfl⟩
  · rintro ⟨place, b, c, d, ⟨⟨s, before, rest, hs, found, _, none⟩, ends⟩, rfl⟩
    refine ⟨s, List.mem_of_getElem? hs, mem_checkList_of_listAt found (mem_checkHere.mpr ?_)⟩
    exact ⟨c, d, firstUnreachable?_eq_some_iff.mpr ⟨before, rest, rfl, ends, none⟩, rfl⟩

end Lint.Unreachable

theorem Visit.Due.free_before {v : Visit} (due : v.Due) {l : Limits} {Loads : Program → Prop}
    {h : List Visit} (r : Reached l Loads h v.engine) {p : Program} {place : Place}
    (at' : v.thread.At p place) {s : Script} (hs : p.roots[place.root]? = some s) {b : Bool}
    {list : List Command} (found : Command.listAt? false s.commands place.way = some (b, list))
    {k : Nat} {c : Command} (before : k < place.index) (hc : list[k]? = some c) :
    c.holds b = false := by
  obtain ⟨s', f, fs, hs', top, index, leads⟩ := at'
  obtain rfl := Option.some.inj (hs.symm.trans hs')
  have stack := (due.place r.controlled).1
  have passable := r.passable v.thread due.mem
  rw [top] at stack passable
  obtain ⟨_, _, same, found'⟩ := leads.listAt stack
  obtain ⟨rfl, rfl⟩ := List.cons.inj same
  obtain ⟨rfl, rfl⟩ := Prod.mk.inj (Option.some.inj (found.symm.trans found'))
  exact passable.1 k c (index ▸ before) hc

/-- The findings of the rule are about commands behind a terminator. In every run, whatever the
variables at its beginning, such a command or one behind it in the same list is stepped only if
control can pass the terminator: a `break` or `continue` outside of loops, or a `forever` that
contains a `break` of its own. -/
theorem unreachable_behind_held (l : Limits) (s : Store) (ops : List Engine.Operation) :
    let e : Engine := { limits := l, store := s }
    (∀ p f, f ∈ Lint.Unreachable.rule.check p ↔
      ∃ place b c d, Lint.Unreachable.Reports p place b c d ∧ f = Lint.Unreachable.finding c d) ∧
    ∀ v ∈ e.history ops,
      (∃ p place, .load p ∈ ops ∧ v.thread.At p place) ∧
      ∀ p place, v.thread.At p place → ∀ index b c d, index ≤ place.index →
        Lint.Unreachable.Reports p { place with index := index } b c d → c.holds b = false := by
  intro e
  refine ⟨fun p f => Lint.Unreachable.mem_check_iff, fun v hv => ?_⟩
  have reached := Reached.runFrom l s ops
  obtain ⟨before, after, split⟩ := List.append_of_mem hv
  change Reached l _ (e.history ops) _ at reached
  rw [split] at reached
  obtain ⟨here, due⟩ := reached.earlier rfl
  obtain ⟨_, p, place, hp, at'⟩ := due.place here.controlled
  refine ⟨⟨p, place, hp, at'⟩, fun p place at' index b c d behind reports => ?_⟩
  obtain ⟨s, earlier, rest, hs, found, rfl, _⟩ := reports.found
  have between : earlier.length < place.index := behind
  exact due.free_before here at' hs found between (by simp)

def Lint.Unreachable.behind (c : Command) : Program :=
  ⟨[⟨"script", [c, .simple "after" .unsupported]⟩], .empty⟩

/-- What the rule reports as unreachable is stepped behind a `forever` that is left, and behind a
`break` outside of loops. -/
theorem reported_commands_are_stepped :
    let left : Command := .forever "loop" [.simple "exit" .breakLoop]
    let skipped : Command := .simple "exit" .breakLoop
    let run (c : Command) : List Engine.Operation :=
      [.load (Lint.Unreachable.behind c), .bind {}, .start 0, .tick 0]
    (Lint.Unreachable.rule.check (Lint.Unreachable.behind left) =
        [⟨"after", "unreachable: follows 'forever'", .warning, "unreachable-code"⟩] ∧
      ∃ v ∈ ({} : Engine).history (run left), v.thread.frames.map Frame.ip = [1] ∧
        v.thread.current?.map Command.blockId = some "after") ∧
    (Lint.Unreachable.rule.check (Lint.Unreachable.behind skipped) =
        [⟨"after", "unreachable: follows 'break'", .warning, "unreachable-code"⟩] ∧
      ∃ v ∈ ({} : Engine).history (run skipped), v.thread.frames.map Frame.ip = [1] ∧
        v.thread.current?.map Command.blockId = some "after") := by
  decide +kernel

end BlockStage
