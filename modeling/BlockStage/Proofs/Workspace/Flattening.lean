import Mathlib.Data.List.Basic
import BlockStage.Proofs.Workspace.Reading

/-! # Flattening keeps the program

Loading a tree appends to the nodes those of its blocks: a block, then what is on its inputs, then
what follows it, each at the position that `flat` gives it. Reading the program off the positions
comes to what reading it off the tree comes to.
-/
namespace BlockStage.Workspace

open BlockStage.Json (Value)

section Layout

variable (named : List Variable)

mutual

def flat (i : Nat) : Block → List Node
  | .mk kind id _ _ fields inputs next =>
    let below := flatInputs (i + 1) inputs
    let after := flatNext (i + 1 + below.2.length) next
    { kind := kind, id := id, fields := textsOf named fields, inputs := below.1
      next := after.1 } :: (below.2 ++ after.2)

/-- The positions of the blocks on inputs, the first of them at `i`, and their nodes. -/
def flatInputs (i : Nat) : List (String × Plug Block) → Entries Nat × List Node
  | [] => ([], [])
  | (name, plug) :: rest =>
    let here := flatPlug i plug
    let more := flatInputs (i + here.2.length) rest
    ((here.1.map fun j => (name, j)).toList ++ more.1, here.2 ++ more.2)

def flatNext (i : Nat) : Option (Plug Block) → Option Nat × List Node
  | none => (none, [])
  | some plug => flatPlug i plug

def flatPlug (i : Nat) : Plug Block → Option Nat × List Node
  | ⟨some b, _⟩ => (some i, flat i b)
  | ⟨none, some b⟩ => (some i, flat i b)
  | ⟨none, none⟩ => (none, [])

end

/-- Blocks that stand on their own, with their positions from `i` on. -/
def positions (i : Nat) : List Block → List (Block × Nat)
  | [] => []
  | b :: bs => (b, i) :: positions (i + (flat named i b).length) bs

def flatAll (i : Nat) : List Block → List Node
  | [] => []
  | b :: bs => flat named i b ++ flatAll (i + (flat named i b).length) bs

end Layout

/-! ## Loading -/

theorem lastName?_eq (named : List Variable) (id : String) :
    lastName? named id = nameOf? named id := by
  -- what is found so far counts only if the rest of the list gives no name
  have general : ∀ found, named.foldl (fun found v => if v.id = id then some v.name else found)
      found = (nameOf? named id).or found := by
    induction named with
    | nil => intro found; rfl
    | cons v vs ih =>
      intro found
      rw [List.foldl_cons, ih]
      simp only [nameOf?, List.reverse_cons, List.find?_append]
      cases List.find? (fun v => v.id == id) vs.reverse with
      | some w => simp
      | none => by_cases same : v.id = id <;> simp [same]
  rw [lastName?, general none, Option.or_none]

theorem textOf_eq (named : List Variable) (v : Value) : textOf named v = fieldText named v := by
  cases v with
  | bool b => cases b <;> rfl
  | object members =>
    simp only [textOf, fieldText, memberText?]
    cases Entries.find? "id" members with
    | none => cases Entries.find? "name" members with
      | none => rfl
      | some w => cases w <;> rfl
    | some v =>
      cases v with
      | string id =>
        simp only [Option.bind_some, lastName?_eq]
        cases nameOf? named id with
        | some name => rfl
        | none => cases Entries.find? "name" members with
          | none => rfl
          | some w => cases w <;> rfl
      | _ => cases Entries.find? "name" members with
        | none => rfl
        | some w => cases w <;> rfl
  | _ => rfl

namespace Loader

variable {named : List Variable}

theorem bind_eq_ok {ε α β : Type} {x : Except ε α} {f : α → Except ε β} {r : β} :
    (x >>= f) = .ok r ↔ ∃ a, x = .ok a ∧ f a = .ok r := by
  cases x with
  | error e => simp [bind, Except.bind]
  | ok a => simp [bind, Except.bind]

theorem push_nodes {l l' : Loader} {kind id : String} {fields : Entries String}
    (h : l.push kind id fields = .ok l') :
    l'.nodes = l.nodes.push { kind := kind, id := id, fields := fields } := by
  unfold push at h
  split at h
  · obtain rfl := Except.ok.inj h
    rfl
  · split at h
    · cases h
    · obtain rfl := Except.ok.inj h
      rfl

theorem connect_nodes {l : Loader} {before rest : List Node} {n : Node}
    {inputs : Entries Nat} {next : Option Nat} (nodes : l.nodes.toList = before ++ n :: rest) :
    (l.connect before.length inputs next).nodes.toList =
      before ++ { n with inputs := inputs, next := next } :: rest := by
  have there : ∀ f : Node → Node,
      (before ++ n :: rest).modify before.length f = before ++ f n :: rest := by
    intro f
    clear nodes
    induction before with
    | nil => rfl
    | cons m before ih => simpa using ih
  rw [connect, Array.toList_modify, nodes, there]

mutual

theorem load_nodes {l l' : Loader} {b : Block} {i : Nat}
    (h : l.load named b = .ok (i, l')) :
    i = l.nodes.size ∧ l'.nodes.toList = l.nodes.toList ++ flat named l.nodes.size b := by
  obtain ⟨kind, id, x, y, fields, inputs, next⟩ := b
  rw [load] at h
  obtain ⟨l₁, pushed, h⟩ := bind_eq_ok.mp h
  obtain ⟨⟨targets, l₂⟩, below, h⟩ := bind_eq_ok.mp h
  obtain ⟨⟨target, l₃⟩, after, h⟩ := bind_eq_ok.mp h
  obtain ⟨rfl, rfl⟩ := Prod.mk.inj (Except.ok.inj h)
  obtain ⟨rfl, nodes₂⟩ := loadInputs_nodes below
  obtain ⟨rfl, nodes₃⟩ := loadNext_nodes after
  have nodes₁ := congrArg Array.toList (push_nodes pushed)
  have size₁ : l₁.nodes.size = l.nodes.size + 1 := by simp [push_nodes pushed]
  have size₂ : l₂.nodes.size =
      l.nodes.size + 1 + (flatInputs named (l.nodes.size + 1) inputs).2.length := by
    rw [← Array.length_toList, nodes₂, List.length_append, Array.length_toList, size₁]
  have texts : (fields.filterMap fun f => (fieldText named f.2).map fun t => (f.1, t)) =
      textsOf named fields := by
    simp only [textsOf, textOf_eq]
  rw [Array.toList_push, texts] at nodes₁
  rw [nodes₁, size₁] at nodes₂
  rw [nodes₂, size₂, List.append_assoc, List.append_assoc, List.singleton_append] at nodes₃
  refine ⟨rfl, ?_⟩
  rw [← Array.length_toList, connect_nodes nodes₃, flat, size₁, size₂, Array.length_toList]

theorem loadInputs_nodes {l l' : Loader} {inputs : List (String × Plug Block)}
    {targets : Entries Nat} (h : l.loadInputs named inputs = .ok (targets, l')) :
    targets = (flatInputs named l.nodes.size inputs).1 ∧
      l'.nodes.toList = l.nodes.toList ++ (flatInputs named l.nodes.size inputs).2 := by
  match inputs with
  | [] =>
    rw [loadInputs] at h
    obtain ⟨rfl, rfl⟩ := Prod.mk.inj (Except.ok.inj h)
    simp [flatInputs]
  | (name, plug) :: rest =>
    rw [loadInputs] at h
    obtain ⟨⟨target, l₁⟩, here, h⟩ := bind_eq_ok.mp h
    obtain ⟨⟨targets', l₂⟩, more, h⟩ := bind_eq_ok.mp h
    obtain ⟨rfl, nodes₁⟩ := loadPlug_nodes here
    obtain ⟨rfl, nodes₂⟩ := loadInputs_nodes more
    have size₁ : l₁.nodes.size = l.nodes.size + (flatPlug named l.nodes.size plug).2.length := by
      rw [← Array.length_toList, nodes₁, List.length_append, Array.length_toList]
    rw [nodes₁, size₁, List.append_assoc] at nodes₂
    rw [size₁] at h
    rw [flatInputs]
    dsimp only
    cases target : (flatPlug named l.nodes.size plug).1 with
    | none =>
      rw [target] at h
      obtain ⟨rfl, rfl⟩ := Prod.mk.inj (Except.ok.inj h)
      exact ⟨rfl, nodes₂⟩
    | some i =>
      rw [target] at h
      obtain ⟨rfl, rfl⟩ := Prod.mk.inj (Except.ok.inj h)
      exact ⟨rfl, nodes₂⟩

theorem loadNext_nodes {l l' : Loader} {next : Option (Plug Block)} {target : Option Nat}
    (h : l.loadNext named next = .ok (target, l')) :
    target = (flatNext named l.nodes.size next).1 ∧
      l'.nodes.toList = l.nodes.toList ++ (flatNext named l.nodes.size next).2 := by
  match next with
  | none =>
    rw [loadNext] at h
    obtain ⟨rfl, rfl⟩ := Prod.mk.inj (Except.ok.inj h)
    simp [flatNext]
  | some plug =>
    rw [loadNext] at h
    rw [flatNext]
    exact loadPlug_nodes h

theorem loadPlug_nodes {l l' : Loader} {plug : Plug Block} {target : Option Nat}
    (h : l.loadPlug named plug = .ok (target, l')) :
    target = (flatPlug named l.nodes.size plug).1 ∧
      l'.nodes.toList = l.nodes.toList ++ (flatPlug named l.nodes.size plug).2 := by
  match plug with
  | ⟨some b, _⟩ =>
    rw [loadPlug] at h
    obtain ⟨⟨i, l₁⟩, here, h⟩ := bind_eq_ok.mp h
    obtain ⟨rfl, rfl⟩ := Prod.mk.inj (Except.ok.inj h)
    obtain ⟨rfl, nodes⟩ := load_nodes here
    exact ⟨by rw [flatPlug], by rw [flatPlug]; exact nodes⟩
  | ⟨none, some b⟩ =>
    rw [loadPlug] at h
    obtain ⟨⟨i, l₁⟩, here, h⟩ := bind_eq_ok.mp h
    obtain ⟨rfl, rfl⟩ := Prod.mk.inj (Except.ok.inj h)
    obtain ⟨rfl, nodes⟩ := load_nodes here
    exact ⟨by rw [flatPlug], by rw [flatPlug]; exact nodes⟩
  | ⟨none, none⟩ =>
    rw [loadPlug] at h
    obtain ⟨rfl, rfl⟩ := Prod.mk.inj (Except.ok.inj h)
    simp [flatPlug]

end

theorem loadAll_nodes {l l' : Loader} {bs : List Block} {placed : List ((Float × Float) × Nat)}
    (h : loadAll named l bs = .ok (placed, l')) :
    placed = (positions named l.nodes.size bs).map (fun z => ((z.1.y, z.1.x), z.2)) ∧
      l'.nodes.toList = l.nodes.toList ++ flatAll named l.nodes.size bs := by
  induction bs generalizing l placed with
  | nil =>
    obtain ⟨rfl, rfl⟩ := Prod.mk.inj (Except.ok.inj h)
    simp [positions, flatAll]
  | cons b bs ih =>
    rw [loadAll] at h
    obtain ⟨⟨i, l₁⟩, here, h⟩ := bind_eq_ok.mp h
    obtain ⟨⟨rest, l₂⟩, more, h⟩ := bind_eq_ok.mp h
    obtain ⟨rfl, rfl⟩ := Prod.mk.inj (Except.ok.inj h)
    obtain ⟨rfl, nodes₁⟩ := load_nodes here
    obtain ⟨rfl, nodes₂⟩ := ih more
    have size₁ : l₁.nodes.size = l.nodes.size + (flat named l.nodes.size b).length := by
      rw [← Array.length_toList, nodes₁, List.length_append, Array.length_toList]
    rw [nodes₁, size₁, List.append_assoc] at nodes₂
    rw [size₁]
    exact ⟨rfl, nodes₂⟩

end Loader

/-! ## Reading -/

namespace Graph

variable {named : List Variable} {g : Graph} {fuel i : Nat}

/-- The nodes of the graph from a position on begin with the given ones. -/
def Holds (g : Graph) (i : Nat) (ns : List Node) : Prop :=
  ∀ k n, ns[k]? = some n → g.nodes[i + k]? = some n

theorem Holds.append {a b : List Node} (h : g.Holds i (a ++ b)) :
    g.Holds i a ∧ g.Holds (i + a.length) b := by
  constructor
  · intro k n hn
    apply h k n
    rw [List.getElem?_append_left (List.getElem?_eq_some_iff.mp hn).1]
    exact hn
  · intro k n hn
    rw [Nat.add_assoc]
    apply h (a.length + k) n
    rw [List.getElem?_append_right (Nat.le_add_right _ _), Nat.add_sub_cancel_left]
    exact hn

theorem Holds.head {n : Node} {ns : List Node} (h : g.Holds i (n :: ns)) :
    g.nodes[i]? = some n :=
  h 0 n rfl

theorem Holds.tail {n : Node} {ns : List Node} (h : g.Holds i (n :: ns)) : g.Holds (i + 1) ns :=
  Holds.append (a := [n]) h |>.2

/-- A position, or none, stands for a meaning, or none. -/
structure Means (g : Graph) (fuel : Nat) (target : Option Nat) (m : Option Meaning) : Prop where
  both : target.isSome = m.isSome
  value : target.bind (g.value? fuel) = m.bind Meaning.value?
  commands : g.chain fuel target = (m.map Meaning.commands).getD []

/-- The node at a position has the parts of a block. -/
structure Agrees (g : Graph) (fuel i : Nat) (q : Parts) : Prop where
  kind : g.kind i = q.kind
  id : g.id i = q.id
  field : g.field? i = q.field?
  input : ∀ name, g.Means fuel (g.input? i name) (Entries.find? name q.inputs)
  after : g.chain fuel (g.next? i) = q.after

namespace Agrees

variable {q : Parts}

theorem operand (h : g.Agrees fuel i q) (name : String) (literal : Expr) :
    g.inputOr fuel i name literal = q.operand name literal := by
  rw [inputOr, (h.input name).value]
  rfl

theorem body (h : g.Agrees fuel i q) (name : String) :
    g.chain fuel (g.input? i name) = q.body name :=
  (h.input name).commands

theorem text (h : g.Agrees fuel i q) (name : String) : g.fieldOrEmpty i name = q.text name := by
  rw [fieldOrEmpty, h.field]
  rfl

theorem message (h : g.Agrees fuel i q) : g.message fuel i = q.message := by
  rw [Graph.message, h.text, h.operand]
  rfl

theorem arith (h : g.Agrees fuel i q) : g.arithOp i = q.arith := by
  unfold arithOp Parts.arith
  rw [h.field]
  split <;> simp_all

theorem compare (h : g.Agrees fuel i q) : g.compareOp i = q.compare := by
  unfold compareOp Parts.compare
  rw [h.field]
  split <;> simp_all

theorem logic (h : g.Agrees fuel i q) : g.logicOp i = q.logic := by
  unfold logicOp Parts.logic
  rw [h.field]
  split <;> simp_all

theorem value (h : g.Agrees fuel i q) : g.value? (fuel + 1) i = q.value? := by
  have operand : ∀ name literal,
      ((g.input? i name).bind (g.value? fuel)).getD literal = q.operand name literal := h.operand
  simp only [value?, operand, h.kind, h.field, h.text, h.arith, h.compare, h.logic]
  rfl

theorem statement (h : g.Agrees fuel i q) :
    g.statement? fuel (g.chain fuel) i = q.command? := by
  simp only [statement?, h.operand, h.body, h.kind, h.id, h.text, h.message]
  unfold Parts.command? Parts.instruction?
  generalize q.kind = kind
  split
  all_goals try rfl
  -- the kind is none of those that a statement is made from, so it is none of these either
  split
  all_goals try contradiction
  split <;> first | contradiction | rfl

theorem chain (h : g.Agrees fuel i q) :
    g.chain (fuel + 1) (some i) = q.meaning.commands := by
  rw [Graph.chain, h.statement, h.after]
  rfl

theorem means (h : g.Agrees fuel i q) : g.Means (fuel + 1) (some i) (some q.meaning) :=
  ⟨rfl, h.value, h.chain⟩

end Agrees

theorem means_none (g : Graph) (fuel : Nat) : g.Means fuel none none := by
  refine ⟨rfl, rfl, ?_⟩
  cases fuel <;> rfl

theorem Means.or {t t' : Option Nat} {m m' : Option Meaning} (h : g.Means fuel t m)
    (h' : g.Means fuel t' m') : g.Means fuel (t.or t') (m.or m') := by
  have both := h.both
  cases t with
  | none => cases m with
    | none => exact h'
    | some m => cases both
  | some j => cases m with
    | none => cases both
    | some m => exact h

theorem find?_option_append {α : Type} (name other : String) (t : Option α) (es : Entries α) :
    Entries.find? name ((t.map fun a => (other, a)).toList ++ es) =
      if other = name then t.or (Entries.find? name es) else Entries.find? name es := by
  cases t with
  | none => simp
  | some a => by_cases same : other = name <;> simp [Entries.find?, same]

theorem exists_eq_succ {b : Block} (enough : (flat named i b).length ≤ fuel) :
    ∃ k, fuel = k + 1 := by
  obtain ⟨kind, id, x, y, fields, inputs, next⟩ := b
  cases fuel with
  | zero => simp [flat] at enough
  | succ k => exact ⟨k, rfl⟩

mutual

/-- Where the nodes of a block are, there is what its parts say; one unit of fuel for each node is
enough. -/
theorem agrees_of_holds {i fuel : Nat} {b : Block} (held : g.Holds i (flat named i b))
    (enough : (flat named i b).length ≤ fuel + 1) : g.Agrees fuel i (b.parts named) := by
  obtain ⟨kind, id, x, y, fields, inputs, next⟩ := b
  rw [flat] at held enough
  have here := held.head
  obtain ⟨below, after⟩ := held.tail.append
  simp only [List.length_cons, List.length_append] at enough
  have rest : g.chain fuel _ = _ := means_of_next after (by omega)
  rw [Block.parts]
  refine ⟨by simp [Graph.kind, here], by simp [Graph.id, here], ?_, ?_, ?_⟩
  · funext name
    simp [Graph.field?, here, Parts.field?]
  · intro name
    rw [input?, here]
    exact means_of_inputs below (by omega) name
  · rw [next?, here]
    exact rest

theorem means_of_inputs {i fuel : Nat} {inputs : List (String × Plug Block)}
    (held : g.Holds i (flatInputs named i inputs).2)
    (enough : (flatInputs named i inputs).2.length ≤ fuel) (name : String) :
    g.Means fuel (Entries.find? name (flatInputs named i inputs).1)
      (Entries.find? name (meanings named inputs)) := by
  match inputs with
  | [] => exact means_none g fuel
  | (other, plug) :: rest =>
    rw [flatInputs] at held enough ⊢
    dsimp only at held enough ⊢
    obtain ⟨here, more⟩ := held.append
    rw [List.length_append] at enough
    have first : g.Means fuel _ _ := means_of_plug here (Nat.le_of_add_right_le enough)
    have others : g.Means fuel _ _ := means_of_inputs more (Nat.le_of_add_left_le enough) name
    rw [meanings, find?_option_append, find?_option_append]
    split
    · exact first.or others
    · exact others

theorem means_of_next {i fuel : Nat} {next : Option (Plug Block)}
    (held : g.Holds i (flatNext named i next).2)
    (enough : (flatNext named i next).2.length ≤ fuel) :
    g.chain fuel (flatNext named i next).1 = following named next := by
  match next with
  | none =>
    rw [flatNext, following]
    exact (means_none g fuel).commands
  | some plug =>
    rw [flatNext] at held enough ⊢
    rw [following]
    exact (means_of_plug held enough).commands

theorem means_of_plug {i fuel : Nat} {plug : Plug Block}
    (held : g.Holds i (flatPlug named i plug).2)
    (enough : (flatPlug named i plug).2.length ≤ fuel) :
    g.Means fuel (flatPlug named i plug).1 (plugged? named plug) := by
  match plug with
  | ⟨some b, _⟩ =>
    rw [flatPlug] at held enough ⊢
    rw [plugged?]
    obtain ⟨fuel, rfl⟩ := exists_eq_succ enough
    exact (agrees_of_holds held enough).means
  | ⟨none, some b⟩ =>
    rw [flatPlug] at held enough ⊢
    rw [plugged?]
    obtain ⟨fuel, rfl⟩ := exists_eq_succ enough
    exact (agrees_of_holds held enough).means
  | ⟨none, none⟩ =>
    rw [flatPlug, plugged?]
    exact means_none g fuel

end

theorem agrees_of_positions {i : Nat} {bs : List Block} (held : g.Holds i (flatAll named i bs))
    (enough : (flatAll named i bs).length ≤ fuel) :
    ∀ z ∈ positions named i bs, g.Agrees fuel z.2 (z.1.parts named) := by
  induction bs generalizing i with
  | nil => intro z hz; cases hz
  | cons b bs ih =>
    rw [flatAll] at held enough
    rw [List.length_append] at enough
    obtain ⟨here, more⟩ := held.append
    intro z hz
    rcases List.mem_cons.mp hz with rfl | hz
    · exact agrees_of_holds here (Nat.le_succ_of_le (Nat.le_of_add_right_le enough))
    · exact ih more (by omega) z hz

theorem addRoot_eq {q : Parts} (h : g.Agrees g.size i q) (p : Program) :
    g.addRoot p i = q.addTo p := by
  unfold addRoot Parts.addTo
  simp only [h.kind, h.id, h.after, h.message, h.body]
  rfl

end Graph

theorem positions_blocks (named : List Variable) (i : Nat) (bs : List Block) :
    (positions named i bs).map Prod.fst = bs := by
  induction bs generalizing i with
  | nil => rfl
  | cons b bs ih => rw [positions, List.map_cons, ih]

theorem notBehind_iff (a b : Block) : a.notBehind b = true ↔
    orderKey a.y < orderKey b.y ∨ orderKey a.y = orderKey b.y ∧ orderKey a.x ≤ orderKey b.x := by
  rw [Block.notBehind, decide_eq_true_iff, before_iff, before_iff, ← orderKey_inj, Int.not_lt]

theorem notBehind_eq (a b : Block × Nat) :
    a.1.notBehind b.1 = placeLe ((a.1.y, a.1.x), a.2) ((b.1.y, b.1.x), b.2) := by
  rw [Bool.eq_iff_iff, notBehind_iff]
  simp [placeLe]

/-- The blocks that stand on their own, in their order, with the positions they are loaded to. -/
def Tree.placed (t : Tree) : List (Block × Nat) :=
  (positions t.named 0 t.blocks).mergeSort fun a b => a.1.notBehind b.1

theorem Tree.placed_blocks (t : Tree) :
    t.placed.map Prod.fst = t.blocks.mergeSort Block.notBehind := by
  have sorted : t.placed.map Prod.fst =
      ((positions t.named 0 t.blocks).map Prod.fst).mergeSort Block.notBehind :=
    List.map_mergeSort fun _ _ _ _ => rfl
  rw [sorted, positions_blocks]

theorem ofTree_eq {t : Tree} {g : Graph} (loaded : Graph.ofTree t = .ok g) :
    g.nodes.toList = flatAll t.named 0 t.blocks ∧ g.topLevel = t.placed.map Prod.snd := by
  obtain ⟨⟨placed, l⟩, filled, made⟩ := Loader.bind_eq_ok.mp loaded
  obtain ⟨rfl, nodes⟩ := Loader.loadAll_nodes filled
  obtain rfl := Except.ok.inj made
  refine ⟨nodes, ?_⟩
  dsimp only
  rw [← List.map_mergeSort fun a _ b _ => notBehind_eq a b, List.map_map]
  rfl

theorem Graph.holds_of_loaded {t : Tree} {g : Graph} (loaded : Graph.ofTree t = .ok g) :
    g.Holds 0 (flatAll t.named 0 t.blocks) := by
  intro k n hn
  rw [Nat.zero_add, ← Array.getElem?_toList, (ofTree_eq loaded).1]
  exact hn

/-- Compiling adds what the blocks that stand on their own contribute, in their order. -/
theorem Graph.compile_placed {t : Tree} {g : Graph} (loaded : Graph.ofTree t = .ok g) :
    g.compile = t.placed.foldl (fun p z => (z.1.parts t.named).addTo p) .empty := by
  obtain ⟨nodes, roots⟩ := ofTree_eq loaded
  have held := Graph.holds_of_loaded loaded
  have enough : (flatAll t.named 0 t.blocks).length ≤ g.size := by
    rw [← nodes, Array.length_toList]
    exact Nat.le_refl _
  rw [Graph.compile, roots, List.foldl_map]
  apply List.foldl_ext
  intro p z hz
  exact Graph.addRoot_eq (Graph.agrees_of_positions held enough z (List.mem_mergeSort.mp hz)) p

/-- The program of a loaded tree is the program of the tree. -/
theorem compile_of_loaded_tree (t : Tree) (g : Graph) (loaded : Graph.ofTree t = .ok g) :
    g.compile = t.program := by
  rw [Graph.compile_placed loaded, Tree.program, ← t.placed_blocks, List.foldl_map]

/-- Start blocks that are not written in the order of their places, two of them at places that
differ in the sign of a zero and two at one place; a real block over a shadow, a chain through a
block of unknown kind, and an identifier that is named twice. -/
theorem compile_of_loaded_tree_nested :
    let number (n : String) : Block := .mk "math_number" "" 0 0 [("NUM", .string n)] [] none
    let counter : Value := .object [("id", .string "v")]
    let change : Block := .mk "math_change" "c" 0 0 [("VAR", counter)] [] none
    let unknown : Block := .mk "bp_glow" "u" 0 0 [] [] (some ⟨some change, none⟩)
    let again : Block := .mk "bp_repeat" "r" 0 0 []
      [("DO", ⟨some unknown, none⟩), ("TIMES", ⟨some (number "3"), some (number "7")⟩)] none
    let low : Block := .mk "bp_start" "low" 0 9 [] [] (some ⟨none, some again⟩)
    let right : Block := .mk "bp_start" "right" 0 1 [] [] none
    let left : Block := .mk "bp_start" "left" (-0) 1 [] [] none
    let twin : Block := .mk "bp_start" "twin" 0 1 [] [] none
    let receive : Block := .mk "bp_when_receive" "h" 0 1 [("MSG", .string "go")]
      [("DO", ⟨none, none⟩)] none
    let t : Tree := ⟨[low, right, left, twin, receive], [⟨"old", "v"⟩, ⟨"new", "v"⟩]⟩
    let body : List Command := [.simple "c" (.changeVar "new" (.num 1))]
    let p : Program :=
      ⟨[⟨"left", []⟩, ⟨"right", []⟩, ⟨"twin", []⟩,
          ⟨"low", [.repeatTimes "r" (.num 3) body]⟩],
        Dict.empty.insert "go" [⟨"h", []⟩]⟩
    ∃ g, Graph.ofTree t = .ok g ∧ g.compile = t.program ∧ g.compile = p := by
  intro number counter change unknown again low right left twin receive t body p
  have lowRight : low.notBehind right = false := by decide
  have lowTwin : low.notBehind twin = false := by decide
  have lowReceive : low.notBehind receive = false := by decide
  have rightLeft : right.notBehind left = false := by decide
  have rightTwin : right.notBehind twin = true := by decide
  have leftTwin : left.notBehind twin = true := by decide
  have twinReceive : twin.notBehind receive = true := by decide
  have sorted : t.blocks.mergeSort Block.notBehind = [left, right, twin, receive, low] := by
    simp [t, List.mergeSort, lowRight, lowTwin, lowReceive, rightLeft, rightTwin, leftTwin,
      twinReceive]
  have read : t.program = p := by
    rw [Tree.program, sorted]
    rfl
  have compiled := compile_of_loaded_tree t _ rfl
  exact ⟨_, rfl, compiled, compiled.trans read⟩

end BlockStage.Workspace
