import Mathlib.Data.List.Basic
import BlockStage.Proofs.ControlStack
import BlockStage.Proofs.Structured.Fiber

/-! # Places in programs

A place is where a command stands in a program: the number of its script or handler, the way into
nested lists, and the position in the last of them. `Command.spots` goes through all places of a
list, each command before those inside of it. The frames of a thread lead along a way, and a loop is
among them exactly where a loop surrounds the place.
-/
namespace BlockStage

open Structured (inLoop)

/-- The way into a nested list, from the outermost list on: in each, the position of a command and
the number of the list inside of it. -/
abbrev Way := List (Nat × Nat)

structure Place where
  /-- The number among the scripts and handlers. -/
  root : Nat
  way : Way
  index : Nat
  deriving Repr, DecidableEq

/-- A command where it stands in a list, and whether a loop surrounds it. -/
structure Spot where
  way : Way
  index : Nat
  inLoop : Bool
  command : Command

/-- The spot, seen from outside of the command at position `i` whose list of number `n` it is in. -/
def Spot.below (i n : Nat) (s : Spot) : Spot := { s with way := (i, n) :: s.way }

namespace Command

def isLoop : Command → Bool
  | .repeatTimes _ _ _ | .forever _ _ => true
  | _ => false

mutual

/-- The commands inside of the command at position `i`. -/
def spotsInside (b : Bool) (i : Nat) : Command → List Spot
  | .simple _ _ => []
  | .repeatTimes _ _ body => (spotsFrom true 0 body).map (Spot.below i 0)
  | .forever _ body => (spotsFrom true 0 body).map (Spot.below i 0)
  | .ifThen _ _ body => (spotsFrom b 0 body).map (Spot.below i 0)
  | .ifElse _ _ yes no =>
    (spotsFrom b 0 yes).map (Spot.below i 0) ++ (spotsFrom b 0 no).map (Spot.below i 1)

/-- The commands of a list whose first one has position `i`, with all inside of them. -/
def spotsFrom (b : Bool) (i : Nat) : List Command → List Spot
  | [] => []
  | c :: cs => ⟨[], i, b, c⟩ :: (spotsInside b i c ++ spotsFrom b (i + 1) cs)

end

def spots (cs : List Command) : List Spot := spotsFrom false 0 cs

/-- The list at the end of a way, and whether a loop surrounds it. -/
def listAt? (b : Bool) (cs : List Command) : Way → Option (Bool × List Command)
  | [] => some (b, cs)
  | (i, n) :: way =>
    match cs[i]? with
    | none => none
    | some c =>
      match c.bodies[n]? with
      | none => none
      | some body => listAt? (b || c.isLoop) body way

variable {b b' : Bool} {i n : Nat} {c : Command} {cs cs' body : List Command} {way : Way}

theorem listAt?_cons (hc : cs[i]? = some c) (hn : c.bodies[n]? = some body) (way : Way) :
    listAt? b cs ((i, n) :: way) = listAt? (b || c.isLoop) body way := by
  simp [listAt?, hc, hn]

theorem listAt?_snoc (h : listAt? b cs way = some (b', cs')) (hc : cs'[i]? = some c)
    (hn : c.bodies[n]? = some body) :
    listAt? b cs (way ++ [(i, n)]) = some (b' || c.isLoop, body) := by
  induction way generalizing b cs with
  | nil =>
    obtain ⟨rfl, rfl⟩ := Prod.mk.inj (Option.some.inj h)
    rw [List.nil_append, listAt?_cons hc hn]
    rfl
  | cons step way ih =>
    unfold listAt? at h
    split at h
    · cases h
    next d hd =>
      split at h
      · cases h
      next inner hi => rw [List.cons_append, listAt?_cons hd hi, ih h]

theorem getElem?_pair {yes no : List Command} (h : [yes, no][n]? = some body) :
    n = 0 ∧ body = yes ∨ n = 1 ∧ body = no := by
  cases n with
  | zero => exact Or.inl ⟨rfl, (Option.some.inj h).symm⟩
  | succ n =>
    cases n with
    | zero => exact Or.inr ⟨rfl, (Option.some.inj h).symm⟩
    | succ n => cases h

theorem mem_spotsInside {s : Spot} : s ∈ spotsInside b i c ↔
    ∃ n body r, c.bodies[n]? = some body ∧ r ∈ spotsFrom (b || c.isLoop) 0 body ∧
      s = r.below i n := by
  have one : ∀ {inner : List Command} {b : Bool}, s ∈ (spotsFrom b 0 inner).map (Spot.below i 0) ↔
      ∃ n body r, [inner][n]? = some body ∧ r ∈ spotsFrom b 0 body ∧ s = r.below i n := by
    intro inner b
    rw [List.mem_map]
    constructor
    · rintro ⟨r, hr, rfl⟩
      exact ⟨0, inner, r, rfl, hr, rfl⟩
    · rintro ⟨n, body, r, hn, hr, rfl⟩
      obtain ⟨rfl, rfl⟩ : n = 0 ∧ inner = body := by
        cases n <;> simp_all
      exact ⟨r, hr, rfl⟩
  cases c with
  | simple id i => simp [spotsInside, bodies]
  | repeatTimes id times body => simpa [spotsInside, bodies, isLoop] using one
  | forever id body => simpa [spotsInside, bodies, isLoop] using one
  | ifThen id cond body => simpa [spotsInside, bodies, isLoop] using one
  | ifElse id cond yes no =>
    simp only [spotsInside, bodies, isLoop, Bool.or_false, List.mem_append, List.mem_map]
    constructor
    · rintro (⟨r, hr, rfl⟩ | ⟨r, hr, rfl⟩)
      · exact ⟨0, yes, r, rfl, hr, rfl⟩
      · exact ⟨1, no, r, rfl, hr, rfl⟩
    · rintro ⟨n, body, r, hn, hr, rfl⟩
      rcases getElem?_pair hn with ⟨rfl, rfl⟩ | ⟨rfl, rfl⟩
      · exact Or.inl ⟨r, hr, rfl⟩
      · exact Or.inr ⟨r, hr, rfl⟩

theorem mem_spotsFrom {s : Spot} : s ∈ spotsFrom b i cs ↔
    ∃ j c, cs[j]? = some c ∧ (s = ⟨[], i + j, b, c⟩ ∨ s ∈ spotsInside b (i + j) c) := by
  induction cs generalizing i with
  | nil => simp [spotsFrom]
  | cons d cs ih =>
    rw [spotsFrom, List.mem_cons, List.mem_append, ih]
    constructor
    · rintro (here | inside | ⟨j, c, hc, there⟩)
      · exact ⟨0, d, rfl, Or.inl here⟩
      · exact ⟨0, d, rfl, Or.inr inside⟩
      · refine ⟨j + 1, c, hc, ?_⟩
        rwa [← Nat.add_assoc, Nat.add_right_comm]
    · rintro ⟨j, c, hc, found⟩
      cases j with
      | zero =>
        obtain rfl := Option.some.inj hc
        rcases found with here | inside
        · exact Or.inl here
        · exact Or.inr (Or.inl inside)
      | succ j =>
        refine Or.inr (Or.inr ⟨j, c, hc, ?_⟩)
        rwa [Nat.add_right_comm, Nat.add_assoc]

/-- The commands that are met are those to which a way leads, with the loops on that way. -/
theorem mem_spotsFrom_iff {s : Spot} : s ∈ spotsFrom b 0 cs ↔
    ∃ list, listAt? b cs s.way = some (s.inLoop, list) ∧ list[s.index]? = some s.command := by
  obtain ⟨way, index, inLoop, command⟩ := s
  rw [mem_spotsFrom]
  induction way generalizing b cs with
  | nil =>
    constructor
    · rintro ⟨j, c, hc, here | inside⟩
      · obtain ⟨_, rfl, rfl, rfl⟩ := Spot.mk.inj here
        exact ⟨cs, rfl, by simpa using hc⟩
      · obtain ⟨n, body, r, _, _, below⟩ := mem_spotsInside.mp inside
        cases (Spot.mk.inj below).1
    · rintro ⟨list, found, hc⟩
      obtain ⟨rfl, rfl⟩ := Prod.mk.inj (Option.some.inj found)
      exact ⟨index, command, hc, Or.inl (by simp)⟩
  | cons step way ih =>
    obtain ⟨i, n⟩ := step
    constructor
    · rintro ⟨j, c, hc, here | inside⟩
      · cases (Spot.mk.inj here).1
      · obtain ⟨n', body, ⟨way', index', inLoop', command'⟩, hn, hr, below⟩ :=
          mem_spotsInside.mp inside
        obtain ⟨ways, rfl, rfl, rfl⟩ := Spot.mk.inj below
        obtain ⟨steps, rfl⟩ := List.cons.inj ways
        obtain ⟨at', rfl⟩ := Prod.mk.inj steps
        obtain ⟨list, found, there⟩ := ih.mp (mem_spotsFrom.mp hr)
        refine ⟨list, ?_, there⟩
        rw [at', Nat.zero_add]
        exact (listAt?_cons hc hn way).trans found
    · rintro ⟨list, found, there⟩
      unfold listAt? at found
      split at found
      · cases found
      next c hc =>
        split at found
        · cases found
        next body hn =>
          have inner := mem_spotsFrom.mpr (ih.mpr ⟨list, found, there⟩)
          refine ⟨i, c, hc, Or.inr (mem_spotsInside.mpr ⟨n, body, _, hn, inner, ?_⟩)⟩
          simp [Spot.below]

end Command

/-- The command at a place, and whether a loop surrounds it. -/
def Program.at? (p : Program) (place : Place) : Option (Bool × Command) :=
  (p.roots[place.root]?).bind fun s =>
    (Command.listAt? false s.commands place.way).bind fun found =>
      (found.2[place.index]?).map fun c => (found.1, c)

theorem Program.at?_eq_some_iff {p : Program} {place : Place} {b : Bool} {c : Command} :
    p.at? place = some (b, c) ↔
      ∃ s, p.roots[place.root]? = some s ∧
        ⟨place.way, place.index, b, c⟩ ∈ Command.spots s.commands := by
  simp only [Program.at?, Option.bind_eq_some_iff, Option.map_eq_some_iff, Command.spots,
    Command.mem_spotsFrom_iff]
  constructor
  · rintro ⟨s, hs, ⟨b', list⟩, found, c', hc, same⟩
    obtain ⟨rfl, rfl⟩ := Prod.mk.inj same
    exact ⟨s, hs, list, found, hc⟩
  · rintro ⟨s, hs, list, found, hc⟩
    exact ⟨s, hs, (b, list), found, c, hc, rfl⟩

/-- The frames, innermost first, are those of the lists along a way. -/
inductive Leads (root : List Command) : List Frame → Way → Prop where
  | root {f} (commands : f.commands = root) : Leads root [f] []
  | push {f g fs way c n} (below : Leads root (g :: fs) way) (cur : g.current? = some c)
      (body : c.bodies[n]? = some f.commands) : Leads root (f :: g :: fs) (way ++ [(g.ip, n)])

/-- The thread stands at the place of the program. -/
def Thread.At (p : Program) (place : Place) (t : Thread) : Prop :=
  ∃ s f fs, p.roots[place.root]? = some s ∧ t.frames = f :: fs ∧ f.ip = place.index ∧
    Leads s.commands (f :: fs) place.way

theorem Opens.isLoop {c : Command} {kind : FrameKind} {body : List Command}
    (h : Opens c kind body) : kind.isLoop = c.isLoop := by
  cases h <;> rfl

theorem Opens.body {c : Command} {kind : FrameKind} {body : List Command}
    (h : Opens c kind body) : ∃ n : Nat, c.bodies[n]? = some body := by
  cases h with
  | elseBranch => exact ⟨1, rfl⟩
  | _ => exact ⟨0, rfl⟩

theorem Stack.leads {Root : List Command → Prop} {frames : List Frame} (h : Stack Root frames) :
    ∃ root way, Root root ∧ Leads root frames way := by
  induction h with
  | @root f _ commands => exact ⟨f.commands, [], commands, .root rfl⟩
  | push carries _ ih =>
    obtain ⟨root, way, hr, below⟩ := ih
    obtain ⟨c, cur, opens⟩ := carries
    obtain ⟨n, body⟩ := opens.body
    exact ⟨root, _, hr, below.push cur body⟩

theorem Structured.inLoop_cons (f : Frame) (fs : List Frame) :
    inLoop (f :: fs) = (f.kind.isLoop || inLoop fs) := rfl

theorem Leads.listAt {root : List Command} {frames : List Frame} {way : Way}
    (h : Leads root frames way) {Root : List Command → Prop} (stack : Stack Root frames) :
    ∃ f fs, frames = f :: fs ∧
      Command.listAt? false root way = some (inLoop frames, f.commands) := by
  induction h with
  | @root f commands =>
    cases stack with
    | root kind _ =>
      refine ⟨f, [], rfl, ?_⟩
      rw [← commands]
      simp [Command.listAt?, inLoop, kind, FrameKind.isLoop]
  | @push f g fs way c n _ cur body ih =>
    cases stack with
    | push carries below =>
      obtain ⟨c', cur', opens⟩ := carries
      obtain rfl := Option.some.inj (cur.symm.trans cur')
      obtain ⟨_, _, same, found⟩ := ih below
      obtain ⟨rfl, rfl⟩ := List.cons.inj same
      refine ⟨f, _, rfl, ?_⟩
      rw [Structured.inLoop_cons, opens.isLoop, Bool.or_comm]
      exact Command.listAt?_snoc found cur body

namespace Thread

variable {p : Program} {place : Place} {t : Thread} {Root : List Command → Prop} {tick : Nat}

theorem Controlled.stack_of_unfinished (h : t.Controlled Root tick)
    (unfinished : t.finished = false) : Stack Root t.frames :=
  h.stack (h.frames_ne_nil unfinished)

theorem At.at? (h : t.At p place) (stack : Stack Root t.frames) {c : Command}
    (cur : t.current? = some c) : p.at? place = some (inLoop t.frames, c) := by
  obtain ⟨s, f, fs, hs, top, index, leads⟩ := h
  have here : f.commands[place.index]? = some c := by
    rw [← index]
    exact (current_eq top).symm.trans cur
  rw [top] at stack ⊢
  obtain ⟨_, _, same, found⟩ := leads.listAt stack
  obtain ⟨rfl, rfl⟩ := List.cons.inj same
  simp [Program.at?, hs, found, here]

end Thread

/-- Every thread of a run stands at a place of a program that was loaded. -/
theorem Visit.Due.place {v : Visit} (due : v.Due) {Loads : Program → Prop}
    (h : v.engine.Controlled Loads) :
    Stack (RootOf Loads) v.thread.frames ∧ ∃ p place, Loads p ∧ v.thread.At p place := by
  have stack := (h.threads v.thread due.mem).stack_of_unfinished due.unfinished
  obtain ⟨root, way, ⟨p, hp, s, mem, rfl⟩, leads⟩ := stack.leads
  obtain ⟨r, hr⟩ := List.mem_iff_getElem?.mp mem
  refine ⟨stack, p, ?_⟩
  cases top : v.thread.frames with
  | nil => rw [top] at leads; cases leads
  | cons f fs =>
    rw [top] at leads
    exact ⟨⟨r, way, f.ip⟩, hp, s, f, fs, hr, top, rfl, leads⟩

end BlockStage
