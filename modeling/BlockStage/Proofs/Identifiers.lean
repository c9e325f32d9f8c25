import BlockStage.Proofs.RunawayGuard
import BlockStage.Proofs.Unreachable
import BlockStage.Proofs.UnsetVariable

/-! # Identifiers of blocks in programs

Scripts, handlers and commands carry the identifiers of the blocks they came from. Findings about a
program and highlights in its runs name no others.
-/
namespace BlockStage

def Command.listIds (cs : List Command) : List String := (preorderList cs).map blockId

def Script.ids (s : Script) : List String := s.id :: Command.listIds s.commands

/-- The identifiers of a program: those of its scripts and handlers, each with its commands. -/
def Program.ids (p : Program) : List String := p.roots.flatMap Script.ids

section Programs

variable {p : Program} {c : Command} {s : Script}

theorem Program.mem_ids_of_root (hs : s ∈ p.roots) : s.id ∈ p.ids :=
  List.mem_flatMap.mpr ⟨s, hs, List.mem_cons_self⟩

theorem Program.mem_ids_of_command (hc : c ∈ Lint.UnsetVariable.commands p) :
    c.blockId ∈ p.ids := by
  obtain ⟨s, hs, inside⟩ := List.mem_flatMap.mp hc
  exact List.mem_flatMap.mpr ⟨s, hs, List.mem_cons_of_mem _ (List.mem_map_of_mem inside)⟩

theorem Command.preorderList_of_listAt {b b' : Bool} {cs list : List Command} {way : Way}
    (found : listAt? b cs way = some (b', list)) : preorderList list ⊆ preorderList cs := by
  induction way generalizing b cs with
  | nil =>
    obtain ⟨_, rfl⟩ := Prod.mk.inj (Option.some.inj found)
    exact fun _ hd => hd
  | cons step way ih =>
    unfold listAt? at found
    split at found
    · cases found
    next c hc =>
      split at found
      · cases found
      next body hn =>
        intro d hd
        have inside := mem_preorder_of_body (List.mem_of_getElem? hn) (ih found hd)
        exact mem_preorderList (List.mem_of_getElem? hc) inside

theorem Program.mem_commands_of_listAt {r : Nat} {b b' : Bool} {list : List Command} {way : Way}
    (hs : p.roots[r]? = some s) (found : Command.listAt? b s.commands way = some (b', list))
    (hc : c ∈ list) : c ∈ Lint.UnsetVariable.commands p := by
  have inside := Command.mem_preorderList hc c.self_mem_preorder
  exact List.mem_flatMap.mpr
    ⟨s, List.mem_of_getElem? hs, Command.preorderList_of_listAt found inside⟩

end Programs

/-! ## Findings -/

namespace Lint

variable {p : Program} {f : Finding}

theorem LoopControl.blockId_mem (reported : f ∈ LoopControl.rule.check p) : f.blockId ∈ p.ids := by
  rw [← errors_findings] at reported
  obtain ⟨⟨place, f⟩, mem, rfl⟩ := List.mem_map.mp reported
  obtain ⟨b, c, found, own⟩ := mem_errors_iff.mp mem
  obtain ⟨s, hs, spot⟩ := Program.at?_eq_some_iff.mp found
  obtain ⟨list, there, hc⟩ := Command.mem_spotsFrom_iff.mp spot
  have same : f.blockId = c.blockId := by
    unfold LoopControl.own at own
    split at own
    · split at own
      · cases own
      · rw [List.mem_singleton.mp own]; rfl
    · split at own
      · cases own
      · rw [List.mem_singleton.mp own]; rfl
    · cases own
  rw [same]
  exact Program.mem_ids_of_command
    (Program.mem_commands_of_listAt hs there (List.mem_of_getElem? hc))

theorem Unreachable.blockId_mem (reported : f ∈ Unreachable.rule.check p) : f.blockId ∈ p.ids := by
  obtain ⟨place, b, c, d, reports, rfl⟩ := mem_check_iff.mp reported
  obtain ⟨s, before, rest, hs, found, _, _⟩ := reports.found
  exact Program.mem_ids_of_command (Program.mem_commands_of_listAt hs found (by simp))

theorem UnhandledBroadcast.blockId_mem (reported : f ∈ UnhandledBroadcast.rule.check p) :
    f.blockId ∈ p.ids := by
  rcases List.mem_append.mp reported with sent | received
  · obtain ⟨s, hs, sent⟩ := List.mem_flatMap.mp sent
    obtain ⟨c, hc, own⟩ := List.mem_flatMap.mp sent
    have same : f.blockId = c.blockId := by
      unfold checkCommand at own
      split at own
      · split at own
        · cases own
        · split at own
          · rw [List.mem_singleton.mp own]; rfl
          · cases own
      · cases own
    rw [same]
    exact Program.mem_ids_of_command (List.mem_flatMap.mpr ⟨s, hs, hc⟩)
  · obtain ⟨s, hs, rfl⟩ := List.mem_map.mp received
    exact Program.mem_ids_of_root (p.mem_roots_of_handler hs)

theorem UnsetVariable.firstReadings_subset (known : List String) (rs : List (String × String)) :
    firstReadings known rs ⊆ rs := by
  induction rs generalizing known with
  | nil => exact List.Subset.refl _
  | cons r rs ih =>
    rw [firstReadings]
    split
    · exact fun _ hr => List.mem_cons_of_mem r (ih known hr)
    · exact List.cons_subset_cons r (ih _)

theorem UnsetVariable.blockId_mem (reported : f ∈ UnsetVariable.rule.check p) :
    f.blockId ∈ p.ids := by
  obtain ⟨r, first, rfl⟩ := List.mem_map.mp reported
  obtain ⟨c, hc, reads⟩ := List.mem_flatMap.mp (firstReadings_subset _ _ first)
  have same : (finding r).blockId = c.blockId := by
    split at reads
    · cases reads
    · obtain ⟨name, _, rfl⟩ := List.mem_map.mp reads
      rfl
  rw [same]
  exact Program.mem_ids_of_command hc

theorem blockId_mem (reported : f ∈ check p) : f.blockId ∈ p.ids := by
  obtain ⟨rule, known, reported⟩ := List.mem_flatMap.mp reported
  simp only [rules, List.mem_cons, List.not_mem_nil, or_false] at known
  rcases known with rfl | rfl | rfl | rfl
  · exact LoopControl.blockId_mem reported
  · exact Unreachable.blockId_mem reported
  · exact UnhandledBroadcast.blockId_mem reported
  · exact UnsetVariable.blockId_mem reported

end Lint

/-! ## Highlights -/

namespace Engine

variable {e : Engine} {t : Thread} {dt : Float}

/-- The blocks that have been highlighted, the newest first. -/
def lights (e : Engine) : List String :=
  e.signals.filterMap fun s => s.highlighted?.join

theorem lights_of_same {e' : Engine} (same : e'.signals = e.signals) : e'.lights = e.lights := by
  rw [lights, lights, same]

theorem lit_lights (e : Engine) (id : String) :
    (e.lit id).lights = if id = "" then e.lights else id :: e.lights := by
  unfold lit
  by_cases empty : id = ""
  · rw [if_pos empty, if_pos (by rw [empty]; rfl)]
  · rw [if_neg empty, if_neg (by simpa using empty)]
    rfl

theorem report_lights (e : Engine) (line : String) : (e.report line).lights = e.lights := rfl

theorem stepInstruction_lights (i : Instruction) :
    (e.stepInstruction t i dt).1.lights = e.lights := by
  cases i with
  | move _ => exact lights_of_same (stepAction_signals _)
  | turn _ => exact lights_of_same (stepAction_signals _)
  | wait _ => exact lights_of_same (stepAction_signals _)
  | setVar name value => exact (report_lights ..).trans (lights_of_same (assign_signals ..))
  | changeVar name delta => exact (report_lights ..).trans (lights_of_same (assign_signals ..))
  | deleteVar name => rfl
  | broadcast m wait =>
    cases wait with
    | false => rfl
    | true =>
      simp only [stepInstruction, if_true, stepBroadcastWait]
      split
      · exact lights_of_same (stepWaiting_signals _)
      · exact (lights_of_same (stepWaiting_signals _)).trans (report_lights ..)
  | breakLoop =>
    unfold stepInstruction stepBreak
    dsimp only
    split <;> rfl
  | continueLoop =>
    unfold stepInstruction stepContinue
    dsimp only
    split <;> rfl
  | stopAll => rfl
  | stopThis => rfl
  | unsupported => rfl

theorem stepCommand_lights (c : Command) :
    (e.stepCommand t c dt).1.lights = (e.lit c.blockId).lights := by
  unfold stepCommand lit
  dsimp only
  generalize (if c.blockId.isEmpty = true then e else e.highlight (some c.blockId)) = e₀
  cases c with
  | simple id i => exact stepInstruction_lights i
  | repeatTimes id times body =>
    dsimp only
    split <;> rfl
  | forever id body => rfl
  | ifThen id cond body =>
    dsimp only
    split <;> rfl
  | ifElse id cond yes no => rfl

theorem mem_stepThread_lights {id : String} (lit : id ∈ (e.stepThread t dt).1.lights) :
    id ∈ e.lights ∨ id ≠ "" ∧ ∃ c, t.current? = some c ∧ c.blockId = id := by
  cases cur : t.current? with
  | none =>
    rw [stepThread_spent cur] at lit
    exact .inl lit
  | some c =>
    rw [stepThread_current cur, settle_engine, stepCommand_lights, lit_lights] at lit
    split at lit
    · exact .inl lit
    next named =>
      rcases List.mem_cons.mp lit with rfl | earlier
      · exact .inr ⟨named, c, rfl, rfl⟩
      · exact .inl earlier

end Engine

/-- A run of a program highlights blocks of that program only. -/
theorem Reached.mem_ids {l : Limits} {p : Program} {h : List Visit} {e : Engine}
    (r : Reached l (· = p) h e) : ∀ id ∈ e.lights, id ≠ "" ∧ id ∈ p.ids := by
  induction r with
  | fresh s =>
    intro id lit
    cases lit
  | load _ _ _ ih => exact ih
  | bind _ _ ih => exact ih
  | @start _ e now _ ih =>
    have same : (e.start now).lights = e.lights := by
      unfold Engine.start
      split
      · split <;> rfl
      · rfl
    rwa [same]
  | stop _ ih => exact ih
  | report _ _ ih => exact ih
  | request _ ih => exact ih
  | @beginTick _ e now _ ih =>
    obtain ⟨_, _, begun⟩ := e.beginTick_eq now
    rw [begun]
    exact ih
  | prune _ ih => exact ih
  | count _ ih => exact ih
  | step v due r ih =>
    intro id lit
    rw [Engine.lights_of_same v.after_signals] at lit
    rcases Engine.mem_stepThread_lights lit with earlier | ⟨named, c, cur, rfl⟩
    · exact ih id earlier
    · exact ⟨named, Program.mem_ids_of_command (r.controlled.mem_commands due.mem cur)⟩

end BlockStage
