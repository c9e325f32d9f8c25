import Mathlib.Data.List.Perm.Basic
import BlockStage.Proofs.Workspace.Flattening

/-! # Loaded workspaces are forests

The nodes of a loaded workspace stand for its blocks one by one, without the shadows that real
blocks hide. References lead from nodes to later ones, and each node is referred to once: by another
node or as a block that stands on its own.

So compiling never asks for what is not a node, and every chain and every value ends. To say this,
compiling is written a second time with queries that fail, as does running out of fuel, and the two
are equal on forests.
-/
namespace BlockStage.Workspace

/-! ## Blocks that count -/

mutual

/-- A block and everything connected to it, each before what is connected to it. -/
def Block.reachable : Block → List Block
  | .mk kind id x y fields inputs next =>
    .mk kind id x y fields inputs next :: (reachableInputs inputs ++ reachableNext next)

def reachableInputs : List (String × Plug Block) → List Block
  | [] => []
  | (_, plug) :: rest => reachablePlug plug ++ reachableInputs rest

def reachableNext : Option (Plug Block) → List Block
  | none => []
  | some plug => reachablePlug plug

/-- A connection contributes its real block, else its shadow. -/
def reachablePlug : Plug Block → List Block
  | ⟨some b, _⟩ => b.reachable
  | ⟨none, some b⟩ => b.reachable
  | ⟨none, none⟩ => []

end

def Tree.reachable (t : Tree) : List Block := t.blocks.flatMap Block.reachable

/-- What a node keeps of its block besides the connections. -/
def Block.label (named : List Variable) : Block → String × String × Entries String
  | .mk kind id _ _ fields _ _ => (kind, id, textsOf named fields)

namespace Node

def label (n : Node) : String × String × Entries String := (n.kind, n.id, n.fields)

def targets (n : Node) : List Nat := n.inputs.map Prod.snd ++ n.next.toList

end Node

/-! ## Layout -/

/-- Nodes from position `i` on that stand for the given blocks. The references into them, from the
outside and among themselves, name each of them once and lead from nodes to later ones. -/
structure Laid (named : List Variable) (i : Nat) (roots : List Nat) (nodes : List Node)
    (blocks : List Block) : Prop where
  references : (roots ++ nodes.flatMap Node.targets).Perm (List.range' i nodes.length)
  forward : ∀ k n, nodes[k]? = some n → ∀ j ∈ n.targets, i + k < j
  covers : nodes.map Node.label = blocks.map (Block.label named)

namespace Laid

variable {named : List Variable} {i : Nat} {roots roots' : List Nat} {nodes nodes' : List Node}
  {blocks blocks' : List Block}

theorem nil : Laid named i [] [] [] where
  references := .refl _
  forward k n listed := by cases listed
  covers := rfl

theorem append (h : Laid named i roots nodes blocks)
    (h' : Laid named (i + nodes.length) roots' nodes' blocks') :
    Laid named i (roots ++ roots') (nodes ++ nodes') (blocks ++ blocks') where
  references := by
    have both := h.references.append h'.references
    rw [List.range'_append_1, ← List.length_append] at both
    refine List.Perm.trans ?_ both
    rw [List.flatMap_append, List.append_assoc, List.append_assoc]
    apply List.Perm.append_left
    rw [← List.append_assoc, ← List.append_assoc]
    exact List.Perm.append_right _ List.perm_append_comm
  forward k n listed j hj := by
    by_cases inside : k < nodes.length
    · rw [List.getElem?_append_left inside] at listed
      exact h.forward k n listed j hj
    · rw [List.getElem?_append_right (Nat.le_of_not_lt inside)] at listed
      have later := h'.forward _ n listed j hj
      omega
  covers := by rw [List.map_append, List.map_append, h.covers, h'.covers]

theorem cons {n : Node} {b : Block} (h : Laid named (i + 1) n.targets nodes blocks)
    (label : n.label = b.label named) : Laid named i [i] (n :: nodes) (b :: blocks) where
  references := by
    rw [List.flatMap_cons, List.length_cons, List.range'_succ]
    exact h.references.cons i
  forward k m listed j hj := by
    cases k with
    | zero =>
      obtain rfl := Option.some.inj listed
      have inside := h.references.subset (List.mem_append_left _ hj)
      have := (List.mem_range'_1.mp inside).1
      omega
    | succ k =>
      have later := h.forward k m listed j hj
      omega
  covers := by rw [List.map_cons, List.map_cons, label, h.covers]

end Laid

section Layout

variable (named : List Variable)

mutual

theorem flat_laid (i : Nat) (b : Block) : Laid named i [i] (flat named i b) b.reachable := by
  obtain ⟨kind, id, x, y, fields, inputs, next⟩ := b
  rw [flat, Block.reachable]
  apply Laid.cons
  · exact (flatInputs_laid (i + 1) inputs).append (flatNext_laid _ next)
  · rfl

theorem flatInputs_laid (i : Nat) (inputs : List (String × Plug Block)) :
    Laid named i ((flatInputs named i inputs).1.map Prod.snd) (flatInputs named i inputs).2
      (reachableInputs inputs) := by
  match inputs with
  | [] =>
    rw [flatInputs, reachableInputs]
    exact .nil
  | (name, plug) :: rest =>
    have here := (flatPlug_laid i plug).append (flatInputs_laid _ rest)
    rw [flatInputs, reachableInputs]
    dsimp only
    rw [List.map_append]
    have first : ((flatPlug named i plug).1.map fun j => (name, j)).toList.map Prod.snd =
        (flatPlug named i plug).1.toList := by
      cases (flatPlug named i plug).1 <;> rfl
    rw [first]
    exact here

theorem flatNext_laid (i : Nat) (next : Option (Plug Block)) :
    Laid named i (flatNext named i next).1.toList (flatNext named i next).2
      (reachableNext next) := by
  match next with
  | none =>
    rw [flatNext, reachableNext]
    exact .nil
  | some plug =>
    rw [flatNext, reachableNext]
    exact flatPlug_laid i plug

theorem flatPlug_laid (i : Nat) (plug : Plug Block) :
    Laid named i (flatPlug named i plug).1.toList (flatPlug named i plug).2
      (reachablePlug plug) := by
  match plug with
  | ⟨some b, _⟩ =>
    rw [flatPlug, reachablePlug]
    exact flat_laid i b
  | ⟨none, some b⟩ =>
    rw [flatPlug, reachablePlug]
    exact flat_laid i b
  | ⟨none, none⟩ =>
    rw [flatPlug, reachablePlug]
    exact .nil

end

theorem flatAll_laid (i : Nat) (bs : List Block) :
    Laid named i ((positions named i bs).map Prod.snd) (flatAll named i bs)
      (bs.flatMap Block.reachable) := by
  induction bs generalizing i with
  | nil => exact .nil
  | cons b bs ih => exact (flat_laid named i b).append (ih _)

end Layout

/-! ## Forests -/

namespace Graph

/-- All references: to blocks that stand on their own, and those of the nodes. -/
def references (g : Graph) : List Nat := g.topLevel ++ g.nodes.toList.flatMap Node.targets

/-- References lead to nodes, from nodes to later ones, and each node is referred to once. -/
structure Forest (g : Graph) : Prop where
  valid : ∀ j ∈ g.references, j < g.size
  forward : ∀ (i : Nat) (n : Node), g.nodes[i]? = some n → ∀ j ∈ n.targets, i < j
  once : ∀ i < g.size, g.references.count i = 1

theorem forest_of_loaded {t : Tree} {g : Graph} (loaded : ofTree t = .ok g) : g.Forest := by
  obtain ⟨nodes, roots⟩ := ofTree_eq loaded
  have laid := flatAll_laid t.named 0 t.blocks
  have sorted : g.topLevel.Perm ((positions t.named 0 t.blocks).map Prod.snd) := by
    rw [roots]
    exact (List.mergeSort_perm _ _).map _
  have size : g.size = (flatAll t.named 0 t.blocks).length := by
    rw [← nodes, Array.length_toList]
    rfl
  have all : g.references.Perm (List.range g.size) := by
    rw [references, nodes, size, List.range_eq_range']
    exact (sorted.append_right _).trans laid.references
  constructor
  · intro j hj
    exact List.mem_range.mp (all.subset hj)
  · intro i n listed j hj
    rw [← Array.getElem?_toList, nodes] at listed
    have later := laid.forward i n listed j hj
    omega
  · intro i inside
    rw [all.count_eq, List.nodup_range.count, if_pos (List.mem_range.mpr inside)]

/-! ## Compiling with checks -/

/-- The expression on an input, by queries that can fail. -/
def checkedInput (value : Nat → Option (Option Expr)) (n : Node) (name : String)
    (fallback : Expr) : Option Expr :=
  match Entries.find? name n.inputs with
  | none => some fallback
  | some j => (value j).map fun found => found.getD fallback

/-- `value?` by queries that fail outside of the nodes; it also fails when the fuel runs out. Values
of the kinds not listed ask for their own fields only. -/
def checkedValue (g : Graph) : (fuel : Nat) → (i : Nat) → Option (Option Expr)
  | 0, _ => none
  | fuel + 1, i => do
    let n ← g.nodes[i]?
    let operand := checkedInput (checkedValue g fuel) n
    match n.kind with
    | "math_arithmetic" =>
      return some (.bin (g.arithOp i) (← operand "A" (.num 0)) (← operand "B" (.num 0)))
    | "logic_compare" =>
      return some (.cmp (g.compareOp i) (← operand "A" (.num 0)) (← operand "B" (.num 0)))
    | "logic_operation" =>
      return some (.logic (g.logicOp i) (← operand "A" (.bool false)) (← operand "B" (.bool false)))
    | _ => return g.value? 1 i

/-- `statement?` by queries that fail outside of the nodes. Statements of the kinds not listed ask
for their own fields only. -/
def checkedStatement (g : Graph) (fuel : Nat) (list : Option Nat → Option (List Command))
    (i : Nat) : Option (Option Command) := do
  let n ← g.nodes[i]?
  let value := checkedInput (g.checkedValue fuel) n
  let message := value "MSG" (.str (g.fieldOrEmpty i "MSG"))
  let body (name : String) := list (Entries.find? name n.inputs)
  match n.kind with
  | "bp_move" => return some (.simple n.id (.move (← value "STEPS" (.num 0))))
  | "bp_turn" => return some (.simple n.id (.turn (← value "DEG" (.num 0))))
  | "bp_wait" => return some (.simple n.id (.wait (← value "SECS" (.num 0))))
  | "bp_repeat" => return some (.repeatTimes n.id (← value "TIMES" (.num 0)) (← body "DO"))
  | "bp_forever" => return some (.forever n.id (← body "DO"))
  | "bp_if" => return some (.ifThen n.id (← value "COND" (.bool false)) (← body "DO"))
  | "bp_if_else" =>
    return some (.ifElse n.id (← value "COND" (.bool false)) (← body "DO") (← body "ELSE"))
  | "variables_set" =>
    return some (.simple n.id (.setVar (g.fieldOrEmpty i "VAR") (← value "VALUE" (.num 0))))
  | "math_change" =>
    return some (.simple n.id (.changeVar (g.fieldOrEmpty i "VAR") (← value "DELTA" (.num 1))))
  | "bp_broadcast" => return some (.simple n.id (.broadcast (← message) false))
  | "bp_broadcast_wait" => return some (.simple n.id (.broadcast (← message) true))
  | _ => return g.statement? 0 (fun _ => []) i

/-- `chain` by queries that fail outside of the nodes; it also fails when the fuel runs out. -/
def checkedChain (g : Graph) : (fuel : Nat) → (first : Option Nat) → Option (List Command)
  | _, none => some []
  | 0, some _ => none
  | fuel + 1, some i => do
    let command ← g.checkedStatement fuel (checkedChain g fuel) i
    let n ← g.nodes[i]?
    return command.toList ++ (← checkedChain g fuel n.next)

def checkedRoot (g : Graph) (p : Program) (i : Nat) : Option Program := do
  let n ← g.nodes[i]?
  match n.kind with
  | "bp_start" =>
    return { p with scripts := p.scripts ++ [⟨n.id, ← g.checkedChain g.size n.next⟩] }
  | "bp_when_receive" =>
    let message ← checkedInput (g.checkedValue g.size) n "MSG" (.str (g.fieldOrEmpty i "MSG"))
    let body ← g.checkedChain g.size (Entries.find? "DO" n.inputs)
    return addHandler p (message.literal?.getD "") ⟨n.id, body⟩
  | _ => return p

/-- `compile` by queries that fail outside of the nodes; it also fails when a chain or a value does
not end within as many steps as there are nodes. -/
def checkedCompile (g : Graph) : Option Program := g.topLevel.foldlM g.checkedRoot .empty

/-- What is referred to is a node, and there is fuel for it and for all nodes behind it. -/
def Fits (g : Graph) (fuel : Nat) (target : Option Nat) : Prop :=
  ∀ j ∈ target, j < g.size ∧ g.size ≤ j + fuel

variable {g : Graph} {fuel i : Nat} {n : Node}

theorem exists_node (inside : i < g.size) : ∃ n, g.nodes[i]? = some n :=
  ⟨_, Array.getElem?_eq_getElem inside⟩

theorem kind_of_node (listed : g.nodes[i]? = some n) : g.kind i = n.kind := by
  rw [Graph.kind, listed]
  rfl

theorem id_of_node (listed : g.nodes[i]? = some n) : g.id i = n.id := by
  rw [Graph.id, listed]
  rfl

theorem input?_of_node (listed : g.nodes[i]? = some n) (name : String) :
    g.input? i name = Entries.find? name n.inputs := by
  rw [input?, listed]
  rfl

theorem next?_of_node (listed : g.nodes[i]? = some n) : g.next? i = n.next := by
  rw [next?, listed]
  rfl

namespace Forest

theorem target_bounds (forest : g.Forest) (listed : g.nodes[i]? = some n) {j : Nat}
    (hj : j ∈ n.targets) : i < j ∧ j < g.size := by
  refine ⟨forest.forward i n listed j hj, forest.valid j (List.mem_append_right _ ?_)⟩
  apply List.mem_flatMap.mpr
  exact ⟨n, List.mem_of_getElem? (by rwa [Array.getElem?_toList]), hj⟩

theorem fits_input (forest : g.Forest) (listed : g.nodes[i]? = some n)
    (enough : g.size ≤ i + 1 + fuel) (name : String) :
    g.Fits fuel (Entries.find? name n.inputs) := by
  intro j found
  obtain ⟨entry, here, rfl⟩ := Option.map_eq_some_iff.mp found
  have target : entry.2 ∈ n.targets :=
    List.mem_append_left _ (List.mem_map_of_mem (List.mem_of_find?_eq_some here))
  have := forest.target_bounds listed target
  omega

theorem fits_next (forest : g.Forest) (listed : g.nodes[i]? = some n)
    (enough : g.size ≤ i + 1 + fuel) : g.Fits fuel n.next := by
  intro j found
  have target : j ∈ n.targets := List.mem_append_right _ (Option.mem_toList.mpr found)
  have := forest.target_bounds listed target
  omega

theorem checkedInput_eq_of_values (forest : g.Forest) (listed : g.nodes[i]? = some n)
    (enough : g.size ≤ i + 1 + fuel)
    (values : ∀ j, g.Fits fuel (some j) → g.checkedValue fuel j = some (g.value? fuel j))
    (name : String) (fallback : Expr) :
    checkedInput (g.checkedValue fuel) n name fallback =
      some (g.inputOr fuel i name fallback) := by
  have fits := forest.fits_input listed enough name
  rw [checkedInput, inputOr, input?_of_node listed]
  cases found : Entries.find? name n.inputs with
  | none => rfl
  | some j =>
    rw [found] at fits
    simp only [values j fits, Option.map_some, Option.bind_some]

theorem checkedValue_eq (forest : g.Forest) (fits : g.Fits fuel (some i)) :
    g.checkedValue fuel i = some (g.value? fuel i) := by
  induction fuel generalizing i with
  | zero =>
    have := fits i rfl
    omega
  | succ fuel ih =>
    obtain ⟨inside, enough⟩ := fits i rfl
    obtain ⟨n, listed⟩ := exists_node inside
    have operand := forest.checkedInput_eq_of_values listed (by omega) fun _ => ih
    rw [checkedValue, listed]
    simp only [Option.bind_eq_bind, Option.bind_some, operand, Option.pure_def]
    unfold value?
    simp only [kind_of_node listed]
    generalize n.kind = kind
    split
    · rfl
    · rfl
    · rfl
    · -- the kinds without operands mean the same with any fuel
      split
      all_goals first | rfl | contradiction

theorem checkedInput_eq (forest : g.Forest) (listed : g.nodes[i]? = some n)
    (enough : g.size ≤ i + 1 + fuel) (name : String) (fallback : Expr) :
    checkedInput (g.checkedValue fuel) n name fallback =
      some (g.inputOr fuel i name fallback) :=
  forest.checkedInput_eq_of_values listed enough (fun _ => forest.checkedValue_eq) name fallback

theorem checkedStatement_eq (forest : g.Forest) (listed : g.nodes[i]? = some n)
    (enough : g.size ≤ i + 1 + fuel) {checked : Option Nat → Option (List Command)}
    {list : Option Nat → List Command}
    (bodies : ∀ name, checked (Entries.find? name n.inputs) = some (list (g.input? i name))) :
    g.checkedStatement fuel checked i = some (g.statement? fuel list i) := by
  have operand := forest.checkedInput_eq listed enough
  rw [checkedStatement, listed]
  simp only [Option.bind_eq_bind, Option.bind_some, operand, bodies, Option.pure_def]
  unfold statement?
  simp only [kind_of_node listed, id_of_node listed, message]
  generalize n.kind = kind
  split
  all_goals try rfl
  split
  all_goals first | rfl | contradiction

theorem checkedChain_eq (forest : g.Forest) {first : Option Nat} (fits : g.Fits fuel first) :
    g.checkedChain fuel first = some (g.chain fuel first) := by
  induction fuel generalizing first with
  | zero =>
    cases first with
    | none => rfl
    | some i =>
      have := fits i rfl
      omega
  | succ fuel ih =>
    cases first with
    | none => rfl
    | some i =>
      obtain ⟨inside, enough⟩ := fits i rfl
      obtain ⟨n, listed⟩ := exists_node inside
      have rest : g.size ≤ i + 1 + fuel := by omega
      have command : g.checkedStatement fuel (g.checkedChain fuel) i =
          some (g.statement? fuel (g.chain fuel) i) := by
        apply forest.checkedStatement_eq listed rest
        intro name
        rw [input?_of_node listed]
        exact ih (forest.fits_input listed rest name)
      have after : g.checkedChain fuel n.next = some (g.chain fuel (g.next? i)) := by
        rw [next?_of_node listed]
        exact ih (forest.fits_next listed rest)
      rw [checkedChain, command, listed, chain]
      simp only [Option.bind_eq_bind, Option.bind_some, after, Option.pure_def]

theorem checkedRoot_eq (forest : g.Forest) (inside : i < g.size) (p : Program) :
    g.checkedRoot p i = some (g.addRoot p i) := by
  obtain ⟨n, listed⟩ := exists_node inside
  have enough : g.size ≤ i + 1 + g.size := by omega
  have script : g.checkedChain g.size n.next = some (g.chain g.size (g.next? i)) := by
    rw [next?_of_node listed]
    exact forest.checkedChain_eq (forest.fits_next listed enough)
  have body : g.checkedChain g.size (Entries.find? "DO" n.inputs) =
      some (g.chain g.size (g.input? i "DO")) := by
    rw [input?_of_node listed]
    exact forest.checkedChain_eq (forest.fits_input listed enough "DO")
  have text := forest.checkedInput_eq listed enough "MSG"
  rw [checkedRoot, listed, addRoot, kind_of_node listed, id_of_node listed, message]
  simp only [Option.bind_eq_bind, Option.bind_some, script, body, text, Option.pure_def]
  generalize n.kind = kind
  split
  · rfl
  · rfl
  · simp only

theorem checkedCompile_eq (forest : g.Forest) : g.checkedCompile = some g.compile := by
  have roots : ∀ (is : List Nat) (p : Program), (∀ i ∈ is, i < g.size) →
      is.foldlM g.checkedRoot p = some (is.foldl g.addRoot p) := by
    intro is
    induction is with
    | nil => intro p inside; rfl
    | cons i is ih =>
      intro p inside
      obtain ⟨here, rest⟩ := List.forall_mem_cons.mp inside
      rw [List.foldlM_cons, forest.checkedRoot_eq here, List.foldl_cons]
      exact ih _ rest
  apply roots
  intro i root
  exact forest.valid i (List.mem_append_left _ root)

end Forest

end Graph

theorem labels_of_loaded {t : Tree} {g : Graph} (loaded : Graph.ofTree t = .ok g) :
    g.nodes.toList.map Node.label = t.reachable.map (Block.label t.named) := by
  rw [(ofTree_eq loaded).1]
  exact (flatAll_laid t.named 0 t.blocks).covers

/-- A loaded tree has one node for each of its blocks that count, in their order, and the references
between the nodes make a forest. Compiling it never asks for anything that is not a node, and each
of its chains and values ends. -/
theorem loaded_tree_is_forest (t : Tree) (g : Graph) (loaded : Graph.ofTree t = .ok g) :
    g.size = t.reachable.length ∧
      g.nodes.toList.map Node.label = t.reachable.map (Block.label t.named) ∧
      g.Forest ∧ g.checkedCompile = some g.compile := by
  have forest := Graph.forest_of_loaded loaded
  have covers := labels_of_loaded loaded
  have size : g.size = t.reachable.length := by
    have lengths := congrArg List.length covers
    rwa [List.length_map, List.length_map, Array.length_toList] at lengths
  exact ⟨size, covers, forest, forest.checkedCompile_eq⟩

/-- A real block hides a shadow of the same identifier, an input is left empty, and of two blocks
that stand on their own the one written first stands lower. -/
theorem loaded_tree_is_forest_nested :
    let number (n : String) : Block := .mk "math_number" "" 0 0 [("NUM", .string n)] [] none
    let sum : Block := .mk "math_arithmetic" "a" 0 0 []
      [("A", ⟨some (number "1"), none⟩), ("B", ⟨none, some (number "2")⟩)] none
    let hidden : Block := .mk "math_arithmetic" "a" 0 0 [] [("A", ⟨some (number "3"), none⟩)] none
    let turn : Block := .mk "bp_turn" "t" 0 0 [] [("DEG", ⟨none, none⟩)] none
    let move : Block := .mk "bp_move" "m" 0 0 [] [("STEPS", ⟨some sum, some hidden⟩)]
      (some ⟨none, some turn⟩)
    let begin : Block := .mk "bp_start" "s" 0 9 [] [] (some ⟨some move, none⟩)
    let lone : Block := .mk "bp_glow" "l" 0 1 [] [] none
    let t : Tree := ⟨[begin, lone], []⟩
    ∃ g, Graph.ofTree t = .ok g ∧ g.size = t.reachable.length ∧
      g.nodes.toList.map Node.label = t.reachable.map (Block.label t.named) ∧
      g.Forest ∧ g.checkedCompile = some g.compile := by
  intro number sum hidden turn move begin lone t
  exact ⟨_, rfl, loaded_tree_is_forest t _ rfl⟩

end BlockStage.Workspace
