import Mathlib.Data.List.Perm.Subperm
import BlockStage.Proofs.Identifiers
import BlockStage.Proofs.Workspace.Duplicates
import BlockStage.Proofs.Workspace.Roots

/-! # Blocks are compiled at most once

A block of a workspace turns into at most one script, handler or command, wherever it is plugged in.
Of the blocks on its inputs, a block turns those on different inputs into its bodies, so none of
them is used twice. Since no identifier repeats in a workspace that loads, what a program names it
names once, and it is the identifier of one block.
-/
namespace BlockStage.Workspace

/-! ## Parts of blocks -/

/-- The identifiers that the meanings of blocks on inputs bring along. -/
def inputIds (inputs : Entries Meaning) : List String :=
  inputs.flatMap fun m => Command.listIds m.2.commands

/-- The identifier of a block, and those that its parts bring along. -/
def Parts.ids (q : Parts) : List String := q.id :: (inputIds q.inputs ++ Command.listIds q.after)

theorem listIds_append (cs ds : List Command) :
    Command.listIds (cs ++ ds) = Command.listIds cs ++ Command.listIds ds := by
  have preorder : Command.preorderList (cs ++ ds) =
      Command.preorderList cs ++ Command.preorderList ds := by
    induction cs with
    | nil => rfl
    | cons c cs ih =>
      rw [List.cons_append, Command.preorderList, ih, Command.preorderList, List.append_assoc]
  rw [Command.listIds, preorder, List.map_append]
  rfl

namespace Parts

variable {q : Parts} {name other : String}

theorem listIds_body_cons (m : String × Meaning) (inputs : Entries Meaning) :
    Command.listIds ({ q with inputs := m :: inputs }.body name) =
      if m.1 = name then Command.listIds m.2.commands
      else Command.listIds ({ q with inputs := inputs }.body name) := by
  unfold body
  rw [Entries.find?_cons]
  split <;> rfl

theorem listIds_body (q : Parts) (name : String) :
    (Command.listIds (q.body name)).Subperm (inputIds q.inputs) := by
  obtain ⟨kind, id, fields, inputs, after⟩ := q
  induction inputs with
  | nil => exact List.nil_subperm
  | cons m inputs ih =>
    rw [listIds_body_cons (q := ⟨kind, id, fields, [], after⟩)]
    unfold inputIds
    rw [List.flatMap_cons]
    split
    · exact (List.sublist_append_left _ _).subperm
    · exact ih.trans (List.sublist_append_right _ _).subperm

theorem listIds_bodies (q : Parts) (differ : name ≠ other) :
    (Command.listIds (q.body name) ++ Command.listIds (q.body other)).Subperm
      (inputIds q.inputs) := by
  obtain ⟨kind, id, fields, inputs, after⟩ := q
  induction inputs with
  | nil => exact List.nil_subperm
  | cons m inputs ih =>
    rw [listIds_body_cons (q := ⟨kind, id, fields, [], after⟩),
      listIds_body_cons (q := ⟨kind, id, fields, [], after⟩)]
    unfold inputIds
    rw [List.flatMap_cons]
    by_cases first : m.1 = name
    · have second : m.1 ≠ other := first ▸ differ
      rw [if_pos first, if_neg second]
      exact (List.Subperm.refl _).append (listIds_body _ _)
    · rw [if_neg first]
      by_cases second : m.1 = other
      · rw [if_pos second]
        exact List.perm_append_comm.subperm.trans ((List.Subperm.refl _).append (listIds_body _ _))
      · rw [if_neg second]
        exact ih.trans (List.sublist_append_right _ _).subperm

theorem listIds_command (q : Parts) :
    (Command.listIds q.command?.toList).Subperm (q.id :: inputIds q.inputs) := by
  have own : ∀ c : Command, Command.listIds (some c).toList = c.preorder.map Command.blockId :=
    fun c => congrArg _ (List.append_nil _)
  have one : ∀ name, (q.id :: Command.listIds (q.body name)).Subperm (q.id :: inputIds q.inputs) :=
    fun name => (List.subperm_cons q.id).mpr (listIds_body q name)
  unfold command?
  split
  · rw [own]
    exact one "DO"
  · rw [own]
    exact one "DO"
  · rw [own]
    exact one "DO"
  · have two := listIds_bodies q (show "DO" ≠ "ELSE" by decide)
    rw [own, Command.preorder, List.map_cons, List.map_append]
    exact (List.subperm_cons q.id).mpr two
  · cases q.instruction? with
    | none => exact List.nil_subperm
    | some i => exact (List.subperm_cons q.id).mpr List.nil_subperm

theorem listIds_meaning (q : Parts) : (Command.listIds q.meaning.commands).Subperm q.ids := by
  rw [meaning, listIds_append]
  exact (listIds_command q).append (List.Subperm.refl _)

end Parts

/-! ## Blocks -/

section Blocks

variable (named : List Variable)

mutual

theorem Block.parts_ids : ∀ b : Block, (b.parts named).ids.Subperm (b.reachable.map Block.id)
  | .mk kind id x y fields inputs next => by
    rw [Block.parts, Block.reachable, List.map_cons, List.map_append]
    refine (List.subperm_cons id).mpr ?_
    exact (meanings_ids inputs).append (following_ids next)

theorem meanings_ids : ∀ inputs : List (String × Plug Block),
    (inputIds (meanings named inputs)).Subperm ((reachableInputs inputs).map Block.id)
  | [] => by
    rw [meanings]
    exact List.nil_subperm
  | (name, plug) :: rest => by
    rw [meanings, reachableInputs, List.map_append]
    unfold inputIds
    rw [List.flatMap_append]
    refine List.Subperm.append ?_ (meanings_ids rest)
    have here := plugged_ids plug
    cases found : plugged? named plug with
    | none => exact List.nil_subperm
    | some m =>
      rw [found] at here
      simpa using here

theorem following_ids : ∀ next : Option (Plug Block),
    (Command.listIds (following named next)).Subperm ((reachableNext next).map Block.id)
  | none => by
    rw [following]
    exact List.nil_subperm
  | some plug => by
    rw [following, reachableNext]
    exact plugged_ids plug

theorem plugged_ids : ∀ plug : Plug Block,
    (Command.listIds (((plugged? named plug).map Meaning.commands).getD [])).Subperm
      ((reachablePlug plug).map Block.id)
  | ⟨some b, _⟩ => by
    rw [plugged?, reachablePlug]
    exact (b.parts named).listIds_meaning.trans b.parts_ids
  | ⟨none, some b⟩ => by
    rw [plugged?, reachablePlug]
    exact (b.parts named).listIds_meaning.trans b.parts_ids
  | ⟨none, none⟩ => by
    rw [plugged?]
    exact List.nil_subperm

end

end Blocks

/-! ## Programs -/

theorem ids_addScript (p : Program) (s : Script) :
    ({ p with scripts := p.scripts ++ [s] } : Program).ids.Perm (p.ids ++ s.ids) := by
  unfold Program.ids Program.roots Program.allHandlers
  simp only [List.flatMap_append, List.flatMap_singleton, List.append_assoc]
  exact List.perm_append_comm.append_left _

theorem ids_addHandler (p : Program) (m : String) (s : Script) :
    (Graph.addHandler p m s).ids.Perm (p.ids ++ s.ids) := by
  have handlers := (allHandlers_addHandler p m s).flatMap_right Script.ids
  unfold Program.ids Program.roots
  rw [List.flatMap_append, List.flatMap_append, List.append_assoc]
  refine List.Perm.append_left _ (handlers.trans ?_)
  rw [List.flatMap_cons]
  exact List.perm_append_comm

theorem Parts.addTo_ids (q : Parts) (p : Program) : (q.addTo p).ids.Subperm (p.ids ++ q.ids) := by
  unfold Parts.addTo
  split
  · refine (ids_addScript p _).subperm.trans ((List.subperm_append_left _).mpr ?_)
    exact (List.subperm_cons q.id).mpr (List.sublist_append_right _ _).subperm
  · refine (ids_addHandler p _ _).subperm.trans ((List.subperm_append_left _).mpr ?_)
    refine (List.subperm_cons q.id).mpr ((q.listIds_body "DO").trans ?_)
    exact (List.sublist_append_left _ _).subperm
  · exact (List.sublist_append_left _ _).subperm

/-- The program of a loaded tree has no identifier more often than the tree. -/
theorem compile_ids {t : Tree} {g : Graph} (loaded : Graph.ofTree t = .ok g) :
    g.compile.ids.Subperm t.ids := by
  have fold : ∀ (zs : List (Block × Nat)) (p : Program),
      (zs.foldl (fun p z => (z.1.parts t.named).addTo p) p).ids.Subperm
        (p.ids ++ zs.flatMap fun z => z.1.reachable.map Block.id) := by
    intro zs
    induction zs with
    | nil =>
      intro p
      simpa using List.Subperm.refl p.ids
    | cons z zs ih =>
      intro p
      rw [List.foldl_cons, List.flatMap_cons, ← List.append_assoc]
      refine (ih _).trans ((List.subperm_append_right _).mpr ?_)
      refine ((z.1.parts t.named).addTo_ids p).trans ((List.subperm_append_left _).mpr ?_)
      exact z.1.parts_ids t.named
  rw [Graph.compile_placed loaded]
  refine (fold t.placed .empty).trans (List.Perm.subperm ?_)
  have blocks : (t.placed.map Prod.fst).Perm t.blocks := by
    rw [t.placed_blocks]
    exact List.mergeSort_perm _ _
  have same := blocks.flatMap_right fun b => b.reachable.map Block.id
  rw [List.flatMap_map] at same
  rw [Tree.ids, Tree.reachable, List.map_flatMap]
  exact same

/-! ## Identifiers of a loaded workspace -/

/-- Exactly one block has the identifier, and exactly one node. -/
structure Identifies (t : Tree) (g : Graph) (id : String) : Prop where
  block : t.ids.count id = 1
  node : (g.nodes.toList.map Node.id).count id = 1

theorem ids_of_loaded {t : Tree} {g : Graph} (loaded : Graph.ofTree t = .ok g) :
    g.nodes.toList.map Node.id = t.ids := by
  have label : ∀ b : Block, (b.label t.named).2.1 = b.id := by
    rintro ⟨⟩
    rfl
  have ids := congrArg (List.map fun label => label.2.1) (labels_of_loaded loaded)
  rw [List.map_map, List.map_map] at ids
  rw [Tree.ids, ← List.map_congr_left fun b _ => label b]
  exact ids

theorem identifies_of_loaded {t : Tree} {g : Graph} (loaded : Graph.ofTree t = .ok g) {id : String}
    (mem : id ∈ g.compile.ids) (named : id ≠ "") : Identifies t g id := by
  have once : t.ids.count id = 1 := by
    have most := distinct_of_loaded loaded id named
    have least := List.count_pos_iff.mpr ((compile_ids loaded).subset mem)
    omega
  exact ⟨once, ids_of_loaded loaded ▸ once⟩

/-- Every block is compiled at most once. No identifier but the empty one occurs twice among those
of the scripts, handlers and commands of the program, and each is that of exactly one block. So
findings about the program, and highlights in any run of it, tell which block they are about. -/
theorem blocks_compile_at_most_once (t : Tree) (g : Graph) (loaded : Graph.ofTree t = .ok g) :
    Distinct g.compile.ids ∧
    (∀ id ∈ g.compile.ids, id ≠ "" → Identifies t g id) ∧
    (∀ f ∈ Lint.check g.compile, f.blockId ≠ "" → Identifies t g f.blockId) ∧
    ∀ (l : Limits) (s : Store) (ops : List Engine.Operation), (∀ p, .load p ∈ ops → p = g.compile) →
      ∀ id ∈ (({ limits := l, store := s } : Engine).performAll ops).lights,
        Identifies t g id := by
  refine ⟨?_, ?_, ?_, ?_⟩
  · intro id named
    exact ((compile_ids loaded).count_le id).trans (distinct_of_loaded loaded id named)
  · exact fun id mem named => identifies_of_loaded loaded mem named
  · exact fun f reported named => identifies_of_loaded loaded (Lint.blockId_mem reported) named
  · intro l s ops loads id lit
    have start : Reached l (· = g.compile) [] { limits := l, store := s } := .fresh s
    obtain ⟨named, mem⟩ := (start.performAll ops loads).mem_ids id lit
    exact identifies_of_loaded loaded mem named

/-- A choice with both bodies, a statement on an input for values, and an exit from no loop. -/
theorem blocks_compile_at_most_once_choice :
    let truth : Block := .mk "logic_boolean" "t" 0 0 [("BOOL", .string "TRUE")] [] none
    let exit : Block := .mk "bp_break" "x" 0 0 [] [] none
    let stop : Block := .mk "bp_stop_this" "e" 0 0 [] [] none
    let turn : Block := .mk "bp_turn" "r" 0 0 [] [("DEG", ⟨some stop, none⟩)] none
    let choice : Block := .mk "bp_if_else" "c" 0 0 []
      [("COND", ⟨some truth, none⟩), ("DO", ⟨some exit, none⟩), ("ELSE", ⟨some turn, none⟩)] none
    let t : Tree := ⟨[.mk "bp_start" "s" 0 0 [] [] (some ⟨some choice, none⟩)], []⟩
    ∃ g, Graph.ofTree t = .ok g ∧
      let run := ({} : Engine).performAll [.load g.compile, .bind {}, .start 0, .tick 1]
      g.compile.ids = ["s", "c", "x", "r"] ∧
      (Lint.check g.compile).map Lint.Finding.blockId = ["x"] ∧
      run.lights = ["x", "c"] ∧ Identifies t g "r" ∧ ∀ id ∈ run.lights, Identifies t g id := by
  intro truth exit stop turn choice t
  obtain ⟨g, loaded⟩ : ∃ g, Graph.ofTree t = .ok g := ⟨_, rfl⟩
  refine ⟨g, loaded, ?_⟩
  intro run
  obtain ⟨_, once, _, highlights⟩ := blocks_compile_at_most_once t g loaded
  have ids : g.compile.ids = ["s", "c", "x", "r"] := by
    rw [Graph.compile_placed loaded]
    decide +kernel
  refine ⟨ids, ?_, ?_, once "r" (by rw [ids]; simp) (by simp), ?_⟩
  · rw [Graph.compile_placed loaded]
    decide +kernel
  · dsimp only [run]
    rw [Graph.compile_placed loaded]
    decide +kernel
  · exact highlights {} .empty [.load g.compile, .bind {}, .start 0, .tick 1] (by simp)

end BlockStage.Workspace
