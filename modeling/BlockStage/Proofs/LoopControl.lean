import BlockStage.Lint
import BlockStage.Proofs.Places
import BlockStage.Proofs.Ticks

/-! # Loop control in programs and in runs

The rule for loop control looks at the text of a program, and the engine looks for a loop among the
frames of a thread. Both find the same: a `break` or `continue` is skipped with a warning exactly at
the places that the rule reports, and a program without errors never causes such a warning.
-/
namespace BlockStage

open Structured (shown inLoop fromLoop_eq_nil_iff)

/-- The log line of an exit from a loop where there is none. -/
def Instruction.warning? : Instruction → Option String
  | .breakLoop => some "break: no loop to break."
  | .continueLoop => some "continue: no loop to continue."
  | _ => none

namespace Lint.LoopControl

def own (b : Bool) : Command → List Finding
  | .simple id .breakLoop => if b then [] else [finding id "break"]
  | .simple id .continueLoop => if b then [] else [finding id "continue"]
  | _ => []

def errors (p : Program) : List (Place × Finding) :=
  p.roots.zipIdx.flatMap fun root =>
    (Command.spots root.1.commands).flatMap fun s =>
      (own s.inLoop s.command).map fun f => (⟨root.2, s.way, s.index⟩, f)

mutual

theorem checkCommand_eq (b : Bool) (i : Nat) (c : Command) :
    checkCommand b c =
      own b c ++ (Command.spotsInside b i c).flatMap fun s => own s.inLoop s.command := by
  cases c with
  | simple id instruction =>
    cases instruction <;> simp [checkCommand, own, Command.spotsInside]
  | repeatTimes id times body =>
    rw [Command.spotsInside, List.flatMap_map]
    exact checkList_eq true 0 body
  | forever id body =>
    rw [Command.spotsInside, List.flatMap_map]
    exact checkList_eq true 0 body
  | ifThen id cond body =>
    rw [Command.spotsInside, List.flatMap_map]
    exact checkList_eq b 0 body
  | ifElse id cond yes no =>
    rw [Command.spotsInside, List.flatMap_append, List.flatMap_map, List.flatMap_map,
      checkCommand, checkList_eq b 0 yes, checkList_eq b 0 no]
    rfl

theorem checkList_eq (b : Bool) (i : Nat) (cs : List Command) :
    checkList b cs = (Command.spotsFrom b i cs).flatMap fun s => own s.inLoop s.command := by
  cases cs with
  | nil => rfl
  | cons c cs =>
    have first := checkCommand_eq b i c
    have rest := checkList_eq b (i + 1) cs
    simp [checkList, Command.spotsFrom, first, rest]

end

theorem errors_findings (p : Program) : (errors p).map Prod.snd = rule.check p := by
  have each : ∀ roots : List Script, ∀ r, ((roots.zipIdx r).flatMap fun root =>
      (Command.spots root.1.commands).flatMap fun s => own s.inLoop s.command) =
        roots.flatMap fun s => checkList false s.commands := by
    intro roots
    induction roots with
    | nil => intro r; rfl
    | cons s roots ih =>
      intro r
      rw [List.zipIdx_cons, List.flatMap_cons, List.flatMap_cons, ih, checkList_eq false 0]
      rfl
  simp only [errors, rule, List.map_flatMap, List.map_map, Function.comp_def, List.map_id']
  exact each p.roots 0

theorem mem_errors_iff {p : Program} {place : Place} {f : Finding} :
    (place, f) ∈ errors p ↔ ∃ b c, p.at? place = some (b, c) ∧ f ∈ own b c := by
  simp only [errors, List.mem_flatMap, List.mem_map, List.mem_zipIdx_iff_getElem?]
  constructor
  · rintro ⟨⟨s, r⟩, hs, ⟨way, index, b, c⟩, hx, g, hg, same⟩
    obtain ⟨rfl, rfl⟩ := Prod.mk.inj same
    exact ⟨b, c, Program.at?_eq_some_iff.mpr ⟨s, hs, hx⟩, hg⟩
  · rintro ⟨b, c, found, hf⟩
    obtain ⟨s, hs, hx⟩ := Program.at?_eq_some_iff.mp found
    exact ⟨(s, place.root), hs, _, hx, f, hf, rfl⟩

theorem own_isError {b : Bool} {c : Command} {f : Finding} (h : f ∈ own b c) :
    f.isError = true := by
  unfold own at h
  split at h
  · split at h
    · cases h
    · rw [List.mem_singleton.mp h]; rfl
  · split at h
    · cases h
    · rw [List.mem_singleton.mp h]; rfl
  · cases h

theorem reported_iff {p : Program} {place : Place} {b : Bool} {id : String} {i : Instruction}
    {line : String} (found : p.at? place = some (b, .simple id i)) (exit : i.warning? = some line) :
    (∃ f, (place, f) ∈ errors p ∧ f.isError = true) ↔ b = false := by
  have owns : (∃ f, f ∈ own b (.simple id i)) ↔ b = false := by
    cases i with
    | breakLoop => cases b <;> simp [own]
    | continueLoop => cases b <;> simp [own]
    | _ => cases exit
  constructor
  · rintro ⟨f, hf, _⟩
    obtain ⟨b', c', found', own'⟩ := mem_errors_iff.mp hf
    obtain ⟨rfl, rfl⟩ := Prod.mk.inj (Option.some.inj (found.symm.trans found'))
    exact owns.mp ⟨f, own'⟩
  · intro outside
    obtain ⟨f, hf⟩ := owns.mpr outside
    exact ⟨f, mem_errors_iff.mpr ⟨_, _, found, hf⟩, own_isError hf⟩

theorem errors_eq_nil {p : Program} (h : hasErrors p = false) : errors p = [] := by
  rw [hasErrors, List.any_eq_false] at h
  apply List.eq_nil_iff_forall_not_mem.mpr
  rintro ⟨place, f⟩ hf
  obtain ⟨b, c, _, hown⟩ := mem_errors_iff.mp hf
  have reported : f ∈ rule.check p := by
    rw [← errors_findings]
    exact List.mem_map_of_mem hf
  have found : f ∈ Lint.check p := List.mem_flatMap.mpr ⟨rule, by simp [rules], reported⟩
  exact h f found (own_isError hown)

end Lint.LoopControl

namespace Engine

variable {e e' : Engine} {t : Thread} {dt : Float}

theorem lit_signals (e : Engine) (id : String) : (e.lit id).signals = shown id ++ e.signals := by
  unfold lit shown
  split <;> rfl

theorem stepThread_skips {id line : String} {i : Instruction}
    (cur : t.current? = some (.simple id i)) (exit : i.warning? = some line)
    (outside : t.fromLoop = []) :
    e.stepThread t dt = ((e.lit id).report line, t.advance, true) := by
  rw [stepThread_current cur]
  cases i with
  | breakLoop =>
    obtain rfl := Option.some.inj exit
    simp only [stepCommand, stepInstruction, stepBreak, outside]
    rfl
  | continueLoop =>
    obtain rfl := Option.some.inj exit
    simp only [stepCommand, stepInstruction, stepContinue, outside]
    rfl
  | _ => cases exit

theorem stepThread_exits {id line : String} {i : Instruction}
    (cur : t.current? = some (.simple id i)) (exit : i.warning? = some line)
    (inside : t.fromLoop ≠ []) : (e.stepThread t dt).1 = e.lit id := by
  obtain ⟨loop, outer, split⟩ := List.exists_cons_of_ne_nil inside
  rw [stepThread_current cur]
  cases i with
  | breakLoop =>
    simp only [stepCommand, stepInstruction, stepBreak, split]
    rfl
  | continueLoop =>
    simp only [stepCommand, stepInstruction, stepContinue, split]
    rfl
  | _ => cases exit

/-- No warning about an exit from a loop came in between. -/
def Unwarned (e e' : Engine) : Prop :=
  ∀ i line, Instruction.warning? i = some line → .log line ∈ e'.signals → .log line ∈ e.signals

namespace Unwarned

theorem of_same (same : e'.signals = e.signals) : e.Unwarned e' := by
  intro i line _ told
  rwa [same] at told

theorem trans {e'' : Engine} (h : e.Unwarned e') (h' : e'.Unwarned e'') : e.Unwarned e'' :=
  fun i line exit told => h i line exit (h' i line exit told)

theorem report {line : String} (other : ∀ i : Instruction, i.warning? ≠ some line) :
    e.Unwarned (e.report line) := by
  intro i line' exit told
  rcases List.mem_cons.mp told with same | before
  · rw [Signal.log.inj same] at exit
    exact absurd exit (other i)
  · exact before

theorem highlight (block : Option String) : e.Unwarned (e.highlight block) := by
  intro i line _ told
  rcases List.mem_cons.mp told with same | before
  · cases same
  · exact before

theorem lit (id : String) : e.Unwarned (e.lit id) := by
  unfold Engine.lit
  split
  · exact of_same rfl
  · exact highlight _

theorem stop : e.Unwarned e.stop := by
  intro i line _ told
  rcases List.mem_cons.mp told with same | before
  · cases same
  · exact before

theorem assign (name : String) (x : Float) : e.Unwarned (e.assign name x) := by
  apply of_same
  unfold Engine.assign
  split <;> rfl

end Unwarned

theorem settle_engine (r : Engine × Thread × StepResult) : (settle r).1 = r.1 := by
  obtain ⟨e, t, result⟩ := r
  cases result <;> rfl

theorem not_warning {line : String}
    (head : ∀ rest, line.toList ≠ 'b' :: 'r' :: 'e' :: rest ∧ line.toList ≠ 'c' :: 'o' :: rest)
    (i : Instruction) : i.warning? ≠ some line := by
  intro exit
  cases i with
  | breakLoop =>
    rw [← Option.some.inj exit] at head
    exact (head "ak: no loop to break.".toList).1 rfl
  | continueLoop =>
    rw [← Option.some.inj exit] at head
    exact (head "ntinue: no loop to continue.".toList).2 rfl
  | _ => cases exit

theorem stepAction_signals (i : Instruction) : (e.stepAction t i dt).1.signals = e.signals := by
  unfold stepAction
  split
  · rfl
  · dsimp only
    split <;> rfl

theorem stepWaiting_signals (ids : List Nat) : (e.stepWaiting t ids).1.signals = e.signals := by
  unfold stepWaiting
  split <;> rfl

theorem stepInstruction_unwarned {i : Instruction} (other : i.warning? = none) :
    e.Unwarned (e.stepInstruction t i dt).1 := by
  cases i with
  | move _ => exact .of_same (stepAction_signals _)
  | turn _ => exact .of_same (stepAction_signals _)
  | wait _ => exact .of_same (stepAction_signals _)
  | setVar name value =>
    exact (Unwarned.assign _ _).trans (.report (not_warning (by simp [toString])))
  | changeVar name delta =>
    exact (Unwarned.assign _ _).trans (.report (not_warning (by simp [toString])))
  | deleteVar name =>
    have erased : e.Unwarned { e with store := e.store.erase name } := .of_same rfl
    exact erased.trans (.report (not_warning (by simp [toString])))
  | broadcast m wait =>
    cases wait with
    | false =>
      have told : e.Unwarned (e.report s!"broadcast \"{(m.eval e.store).display}\"") :=
        .report (not_warning (by simp [toString]))
      exact told.trans (.of_same rfl)
    | true =>
      simp only [stepInstruction, if_true, stepBroadcastWait]
      split
      · exact .of_same (stepWaiting_signals _)
      · have told : e.Unwarned
            (e.report s!"broadcast \"{(m.eval e.store).display}\" and wait") :=
          .report (not_warning (by simp [toString]))
        exact told.trans (.of_same (stepWaiting_signals _))
  | breakLoop => cases other
  | continueLoop => cases other
  | stopAll =>
    have told : e.Unwarned (e.report "STOP ALL encountered.") := .report (not_warning (by simp))
    exact told.trans .stop
  | stopThis => exact .report (not_warning (by simp))
  | unsupported => exact .of_same rfl

theorem stepThread_unwarned (inside : ∀ id i line, t.current? = some (.simple id i) →
    Instruction.warning? i = some line → t.fromLoop ≠ []) : e.Unwarned (e.stepThread t dt).1 := by
  cases cur : t.current? with
  | none =>
    apply Unwarned.of_same
    cases top : t.frames with
    | nil => simp [stepThread, top]
    | cons f fs =>
      have spent : f.current? = none := (Thread.current_eq top).symm.trans cur
      simp [stepThread, top, spent]
  | some c =>
    cases c with
    | simple id i =>
      cases exit : i.warning? with
      | some line =>
        rw [stepThread_exits cur exit (inside id i line cur exit)]
        exact .lit id
      | none =>
        rw [stepThread_current cur, settle_engine]
        exact (Unwarned.lit id).trans (stepInstruction_unwarned exit)
    | repeatTimes id times body =>
      rw [stepThread_current cur, settle_engine]
      suffices same : (e.stepCommand t (.repeatTimes id times body) dt).1 = e.lit id by
        rw [same]
        exact .lit id
      change (ite (loopCount (times.evalNumber (e.lit id).store) = 0) _ _ : Engine × _).1 = _
      split <;> rfl
    | forever id body =>
      rw [stepThread_current cur, settle_engine]
      exact .lit id
    | ifThen id cond body =>
      rw [stepThread_current cur, settle_engine]
      suffices same : (e.stepCommand t (.ifThen id cond body) dt).1 = e.lit id by
        rw [same]
        exact .lit id
      change (ite (cond.evalCondition (e.lit id).store = true) _ _ : Engine × _).1 = _
      split <;> rfl
    | ifElse id cond yes no =>
      rw [stepThread_current cur, settle_engine]
      exact .lit id

/-- Nothing has warned about an exit from a loop. -/
def Calm (e : Engine) : Prop :=
  ∀ i line, Instruction.warning? i = some line → .log line ∉ e.signals

theorem Calm.of_unwarned (calm : e.Calm) (h : e.Unwarned e') : e'.Calm :=
  fun i line exit told => calm i line exit (h i line exit told)

theorem start_unwarned (e : Engine) (now : Nat) : e.Unwarned (e.start now) := by
  unfold start
  split
  · split
    · exact .report (not_warning (by simp))
    · intro i line exit told
      rcases List.mem_cons.mp told with same | before
      · rw [Signal.log.inj same] at exit
        exact absurd exit (not_warning (by simp [toString]) i)
      · exact before
  · exact .report (not_warning (by simp))

end Engine

namespace Visit

theorem after_signals (v : Visit) :
    v.after.signals = (v.engine.stepThread v.thread v.dt).1.signals := by
  unfold after Engine.stepAt
  dsimp only
  split <;> rfl

/-- The step highlights its block, warns, and goes on behind the command. -/
def Skips (v : Visit) (id line : String) : Prop :=
  v.after.signals = .log line :: (shown id ++ v.engine.signals) ∧ v.stepped = v.thread.advance

/-- An exit is skipped exactly if no loop is among the frames. -/
theorem skips_iff {v : Visit} {id line : String} {i : Instruction}
    (cur : v.thread.current? = some (.simple id i)) (exit : i.warning? = some line) :
    v.Skips id line ↔ inLoop v.thread.frames = false := by
  rw [← fromLoop_eq_nil_iff]
  constructor
  · rintro ⟨told, _⟩
    by_contra inside
    -- inside of a loop nothing is logged, so there is no room for the line
    rw [v.after_signals, Engine.stepThread_exits cur exit inside, Engine.lit_signals] at told
    have lengths := congrArg List.length told
    simp at lengths
  · intro outside
    have stepped : v.engine.stepThread v.thread v.dt = _ :=
      Engine.stepThread_skips cur exit outside
    refine ⟨?_, ?_⟩
    · rw [v.after_signals, stepped, ← Engine.lit_signals]
      rfl
    · rw [Visit.stepped, stepped]

end Visit

section Runs

variable {l : Limits} {Loads : Program → Prop} {h : List Visit} {e : Engine}

theorem Visit.Due.skips_iff_reported {v : Visit} (due : v.Due) (r : v.engine.Controlled Loads)
    {id line : String} {i : Instruction} (cur : v.thread.current? = some (.simple id i))
    (exit : i.warning? = some line) {p : Program} {place : Place} (at' : v.thread.At p place) :
    v.Skips id line ↔
      ∃ f, (place, f) ∈ Lint.LoopControl.errors p ∧ f.isError = true := by
  have stack := (due.place r).1
  rw [Visit.skips_iff cur exit, Lint.LoopControl.reported_iff (at'.at? stack cur) exit]

/-- A step of a program without errors does not warn. -/
theorem Visit.Due.calm {v : Visit} (due : v.Due) (r : v.engine.Controlled Loads)
    (clean : ∀ p, Loads p → Lint.hasErrors p = false) (calm : v.engine.Calm) : v.after.Calm := by
  obtain ⟨stack, p, place, hp, at'⟩ := due.place r
  have quiet : v.engine.Unwarned (v.engine.stepThread v.thread v.dt).1 := by
    apply Engine.stepThread_unwarned
    intro id i line cur exit outside
    have skips := (Visit.skips_iff cur exit).mpr (fromLoop_eq_nil_iff.mp outside)
    obtain ⟨f, reported, _⟩ := (due.skips_iff_reported r cur exit at').mp skips
    rw [Lint.LoopControl.errors_eq_nil (clean p hp)] at reported
    cases reported
  apply calm.of_unwarned
  intro i line exit told
  rw [v.after_signals] at told
  exact quiet i line exit told

theorem Reached.tick_calm (r : Reached l Loads h e)
    (clean : ∀ p, Loads p → Lint.hasErrors p = false) (calm : e.Calm) (now : Nat) :
    (e.tick now).1.Calm := by
  let I : Engine → Prop := fun e => (∃ h, Reached l Loads h e) ∧ e.Calm
  have keeps : Engine.Keeps I := by
    constructor
    · rintro e now ⟨⟨h, r⟩, calm⟩
      refine ⟨⟨h, r.beginTick now⟩, calm.of_unwarned (.of_same ?_)⟩
      obtain ⟨_, _, begun⟩ := e.beginTick_eq now
      rw [begun]
    · rintro e ⟨⟨h, r⟩, calm⟩
      exact ⟨⟨h, r.prune⟩, calm⟩
    · rintro e ⟨⟨h, r⟩, calm⟩
      exact ⟨⟨h, r.count⟩, calm⟩
    · rintro e ⟨⟨h, r⟩, calm⟩
      exact ⟨⟨h, r.request⟩, calm⟩
    · rintro v due ⟨⟨h, r⟩, calm⟩ _
      exact ⟨⟨_, .step v due r⟩, due.calm r.controlled clean calm⟩
  by_cases running : e.running = true
  · rcases Engine.tick_stays keeps ⟨⟨h, r⟩, calm⟩ running now with ⟨_, _, calm'⟩ | ⟨_, halts⟩
    · exact calm'
    · generalize (e.tick now).1 = e' at halts
      cases halts with
      | @finished e kept _ =>
        have told : e.Unwarned (e.report "All scripts finished.") :=
          .report (Engine.not_warning (by simp))
        exact kept.2.of_unwarned (told.trans .stop)
      | @exceeded e kept =>
        have told : e.Unwarned (e.report
            "Safety stop: too many operations/sec (possible infinite loop).") :=
          .report (Engine.not_warning (by simp))
        exact kept.2.of_unwarned (told.trans .stop)
      | stepped due kept _ =>
        obtain ⟨⟨h, r⟩, calm⟩ := kept
        exact due.calm r.controlled clean calm
  · simpa [Engine.tick, running] using calm

theorem Reached.performAll_calm (r : Reached l Loads h e)
    (clean : ∀ p, Loads p → Lint.hasErrors p = false) (calm : e.Calm)
    (ops : List Engine.Operation) (loads : ∀ p, .load p ∈ ops → Loads p) :
    (e.performAll ops).Calm := by
  induction ops generalizing h e with
  | nil => exact calm
  | cons op ops ih =>
    have next := r.perform op (fun p hp => loads p (by simp [hp]))
    refine ih next ?_ (fun p hp => loads p (List.mem_cons_of_mem _ hp))
    cases op with
    | load p => exact calm
    | bind s => exact calm
    | start now => exact calm.of_unwarned (e.start_unwarned now)
    | stop => exact calm.of_unwarned .stop
    | tick now => exact r.tick_calm clean calm now

end Runs

/-- In every run, whatever the variables at its beginning, every `break` and `continue` that is
stepped is skipped with a warning exactly if the rule for loop control reports an error for the
place where it stands; a run of programs without errors never warns. -/
theorem loop_control_lint_agrees (l : Limits) (s : Store) (ops : List Engine.Operation) :
    let e : Engine := { limits := l, store := s }
    (∀ p, (Lint.LoopControl.errors p).map Prod.snd = Lint.LoopControl.rule.check p) ∧
    (∀ v ∈ e.history ops, ∀ id i line, v.thread.current? = some (.simple id i) →
      i.warning? = some line →
        (∃ p place, .load p ∈ ops ∧ v.thread.At p place) ∧
        ∀ p place, v.thread.At p place →
          (v.Skips id line ↔
            ∃ f, (place, f) ∈ Lint.LoopControl.errors p ∧ f.isError = true)) ∧
    ((∀ p, .load p ∈ ops → Lint.hasErrors p = false) →
      ∀ i line, Instruction.warning? i = some line → .log line ∉ (e.performAll ops).signals) := by
  intro e
  have reached := Reached.runFrom l s ops
  refine ⟨Lint.LoopControl.errors_findings, ?_, ?_⟩
  · intro v hv id i line cur exit
    obtain ⟨before, after, split⟩ := List.append_of_mem hv
    change Reached l _ (e.history ops) _ at reached
    rw [split] at reached
    obtain ⟨here, due⟩ := reached.earlier rfl
    obtain ⟨_, p, place, hp, at'⟩ := due.place here.controlled
    refine ⟨⟨p, place, hp, at'⟩, fun p place at' => ?_⟩
    exact due.skips_iff_reported here.controlled cur exit at'
  · intro clean
    have start : Reached l (fun p => .load p ∈ ops) [] e := .fresh s
    have calm : e.Calm := fun _ _ _ told => by cases told
    exact start.performAll_calm clean calm ops (fun _ hp => hp)

end BlockStage
