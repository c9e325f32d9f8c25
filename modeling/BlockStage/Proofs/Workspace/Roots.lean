import BlockStage.Proofs.Dict
import BlockStage.Proofs.Workspace.Forest

/-! # Blocks that stand on their own

Those blocks are ordered by their place, and at the same place as in the document. The ones of two
kinds are compiled, each to a script of its own: start blocks in their order, and receive blocks in
their order under the message that each of them waits for.
-/
namespace BlockStage.Workspace

/-- Of two blocks with the positions of their nodes, the first one is higher, or as high and further
left, or at the same place and loaded earlier. -/
def Precedes (a b : Block × Nat) : Prop :=
  Before a.1.y b.1.y ∨ a.1.y = b.1.y ∧ (Before a.1.x b.1.x ∨ a.1.x = b.1.x ∧ a.2 < b.2)

/-- The blocks of a tree that stand on their own, as in the document, with the positions of their
nodes. -/
structure Rooted (t : Tree) (g : Graph) (rooted : List (Block × Nat)) : Prop where
  blocks : rooted.map Prod.fst = t.blocks
  increasing : rooted.Pairwise fun a b => a.2 < b.2
  stands : ∀ z ∈ rooted, (g.nodes[z.2]?).map Node.label = some (z.1.label t.named)

/-! ## The order -/

section Order

variable {named : List Variable} {i : Nat} {bs : List Block}

theorem flat_pos (named : List Variable) (i : Nat) (b : Block) : 0 < (flat named i b).length := by
  obtain ⟨kind, id, x, y, fields, inputs, next⟩ := b
  rw [flat]
  exact Nat.succ_pos _

theorem le_of_mem_positions {z : Block × Nat} (h : z ∈ positions named i bs) : i ≤ z.2 := by
  induction bs generalizing i with
  | nil => cases h
  | cons b bs ih =>
    rcases List.mem_cons.mp h with rfl | h
    · exact Nat.le_refl _
    · exact Nat.le_trans (Nat.le_add_right _ _) (ih h)

theorem positions_increasing (named : List Variable) (i : Nat) (bs : List Block) :
    (positions named i bs).Pairwise fun a b => a.2 < b.2 := by
  induction bs generalizing i with
  | nil => exact .nil
  | cons b bs ih =>
    refine List.pairwise_cons.mpr ⟨fun z hz => ?_, ih _⟩
    have later := le_of_mem_positions hz
    have := flat_pos named i b
    omega

theorem notBehind_trans (a b c : Block) (h : a.notBehind b = true) (h' : b.notBehind c = true) :
    a.notBehind c = true := by
  rw [notBehind_iff] at *
  omega

theorem notBehind_total (a b : Block) : (a.notBehind b || b.notBehind a) = true := by
  rw [Bool.or_eq_true, notBehind_iff, notBehind_iff]
  omega

/-- The sort is stable: blocks at the same place keep the order in which they are loaded. -/
theorem Tree.placed_precedes (t : Tree) : t.placed.Pairwise Precedes := by
  have increasing := positions_increasing t.named 0 t.blocks
  have perm : t.placed.Perm (positions t.named 0 t.blocks) := List.mergeSort_perm _ _
  have distinct : t.placed.Pairwise fun a b => a.2 ≠ b.2 :=
    (perm.pairwise_iff fun h => h.symm).mpr (increasing.imp Nat.ne_of_lt)
  -- each pair with its number in the document, which decides between blocks at the same place
  let le (a b : Block × Nat) : Bool := a.1.notBehind b.1
  have numbered : ((positions t.named 0 t.blocks).zipIdx.mergeSort (List.zipIdxLE le)).Pairwise
      fun a b => List.zipIdxLE le a b = true :=
    List.pairwise_mergeSort
      (List.zipIdxLE_trans fun a b c : Block × Nat => notBehind_trans a.1 b.1 c.1)
      (List.zipIdxLE_total fun a b : Block × Nat => notBehind_total a.1 b.1) _
  have stable : t.placed.Pairwise fun a b => a.1.notBehind b.1 = true ∧
      (b.1.notBehind a.1 = true → a.2 ≤ b.2) := by
    unfold Tree.placed
    rw [← List.mergeSort_zipIdx, List.pairwise_map]
    refine numbered.imp_of_mem fun {a b} ha hb le => ?_
    have ha := List.mem_zipIdx_iff_getElem?.mp (List.mem_mergeSort.mp ha)
    have hb := List.mem_zipIdx_iff_getElem?.mp (List.mem_mergeSort.mp hb)
    unfold List.zipIdxLE at le
    split at le
    next here =>
      refine ⟨here, fun back => ?_⟩
      rw [if_pos back, decide_eq_true_eq] at le
      rcases Nat.eq_or_lt_of_le le with same | less
      · rw [same] at ha
        have one := Option.some.inj (ha.symm.trans hb)
        exact Nat.le_of_eq (congrArg Prod.snd one)
      · obtain ⟨ia, ha⟩ := List.getElem?_eq_some_iff.mp ha
        obtain ⟨ib, hb⟩ := List.getElem?_eq_some_iff.mp hb
        have later := List.pairwise_iff_getElem.mp increasing a.2 b.2 ia ib less
        rw [ha, hb] at later
        exact Nat.le_of_lt later
    · cases le
  refine (stable.and distinct).imp fun {a b} ⟨⟨le, tie⟩, differ⟩ => ?_
  rw [notBehind_iff] at le tie
  rw [Precedes, before_iff, before_iff, ← orderKey_inj, ← orderKey_inj]
  omega

end Order

theorem labels_of_positions {named : List Variable} {g : Graph} {i : Nat} {bs : List Block}
    (held : g.Holds i (flatAll named i bs)) :
    ∀ z ∈ positions named i bs, (g.nodes[z.2]?).map Node.label = some (z.1.label named) := by
  induction bs generalizing i with
  | nil => intro z hz; cases hz
  | cons b bs ih =>
    rw [flatAll] at held
    obtain ⟨here, more⟩ := held.append
    intro z hz
    rcases List.mem_cons.mp hz with rfl | hz
    · obtain ⟨kind, id, x, y, fields, inputs, next⟩ := b
      rw [flat] at here
      rw [here.head]
      rfl
    · exact ih more z hz

/-- The blocks that stand on their own are found at their nodes, and the order of the nodes is that
of the places. -/
theorem exists_rooted {t : Tree} {g : Graph} (loaded : Graph.ofTree t = .ok g) :
    ∃ rooted, Rooted t g rooted ∧ t.placed.Perm rooted := by
  refine ⟨positions t.named 0 t.blocks, ⟨positions_blocks .., positions_increasing .., ?_⟩,
    List.mergeSort_perm _ _⟩
  exact labels_of_positions (Graph.holds_of_loaded loaded)

/-! ## What is compiled -/

namespace Graph

def script (g : Graph) (i : Nat) : Script := ⟨g.id i, g.chain g.size (g.next? i)⟩

def handler (g : Graph) (i : Nat) : Script := ⟨g.id i, g.chain g.size (g.input? i "DO")⟩

/-- The message that a receive block waits for: what is on its input, else the text in its field.
What is no text as it stands counts as the empty text. -/
def heard (g : Graph) (i : Nat) : String :=
  match (g.input? i "MSG").bind (g.value? g.size) with
  | some message => message.literal?.getD ""
  | none => (g.field? i "MSG").getD ""

def starts (g : Graph) (i : Nat) : Bool := g.kind i == "bp_start"

def receives (g : Graph) (i : Nat) : Bool := g.kind i == "bp_when_receive"

variable {g : Graph} {i : Nat} {p : Program}

theorem literal_message (g : Graph) (i : Nat) :
    ((g.message g.size i).literal?).getD "" = g.heard i := by
  unfold message inputOr heard fieldOrEmpty
  cases (g.input? i "MSG").bind (g.value? g.size) <;> rfl

theorem addRoot_cases (g : Graph) (p : Program) (i : Nat) :
    (g.starts i = true ∧ g.receives i = false ∧
      g.addRoot p i = { p with scripts := p.scripts ++ [g.script i] }) ∨
    (g.starts i = false ∧ g.receives i = true ∧
      g.addRoot p i = addHandler p (g.heard i) (g.handler i)) ∨
    (g.starts i = false ∧ g.receives i = false ∧ g.addRoot p i = p) := by
  unfold addRoot starts receives
  rw [literal_message]
  split
  next start =>
    rw [start]
    exact .inl ⟨rfl, rfl, rfl⟩
  next receive =>
    rw [receive]
    exact .inr (.inl ⟨rfl, rfl, rfl⟩)
  next notStart notReceive =>
    exact .inr (.inr ⟨by simpa using notStart, by simpa using notReceive, rfl⟩)

end Graph

/-! ## Handlers by message -/

section Handlers

variable {p : Program} {m other : String} {s : Script}

theorem handlersFor_addHandler_self (p : Program) (m : String) (s : Script) :
    (Graph.addHandler p m s).handlersFor m = p.handlersFor m ++ [s] := by
  rw [Program.handlersFor, Graph.addHandler, Dict.find?_insert_self]
  rfl

theorem handlersFor_addHandler_ne (differs : other ≠ m) (p : Program) (s : Script) :
    (Graph.addHandler p m s).handlersFor other = p.handlersFor other := by
  rw [Program.handlersFor, Graph.addHandler, Dict.find?_insert_ne _ differs]
  rfl

theorem flatten_insert_perm {α : Type} {es : Entries (List α)} (sorted : Entries.Sorted es)
    (key : String) (a : α) :
    ((Entries.insert key ((Entries.find? key es).getD [] ++ [a]) es).map Prod.snd).flatten.Perm
      (a :: (es.map Prod.snd).flatten) := by
  induction es with
  | nil => exact .refl _
  | cons e es ih =>
    obtain ⟨low, sorted⟩ := List.pairwise_cons.mp sorted
    rw [Entries.insert, Entries.find?_cons]
    split
    next less =>
      have none : Entries.find? key es = none :=
        Entries.find?_eq_none_of_lt fun e' he' => String.lt_trans less (low e' he')
      have differs : e.1 ≠ key := fun same => String.lt_irrefl key (same ▸ less)
      rw [if_neg differs, none]
      exact .refl _
    next notLess =>
      split
      next same =>
        rw [if_pos same.symm]
        simp only [Option.getD_some, List.map_cons, List.flatten_cons, List.append_assoc]
        exact List.perm_middle
      next differs =>
        rw [if_neg (Ne.symm differs)]
        exact ((ih sorted).append_left e.2).trans List.perm_middle

theorem allHandlers_addHandler (p : Program) (m : String) (s : Script) :
    (Graph.addHandler p m s).allHandlers.Perm (s :: p.allHandlers) :=
  flatten_insert_perm p.handlers.sorted m s

theorem handlerCount_addHandler (p : Program) (m : String) (s : Script) :
    (Graph.addHandler p m s).handlerCount = p.handlerCount + 1 :=
  (allHandlers_addHandler p m s).length_eq

/-- Every message that is listed has a handler. -/
def Answered (p : Program) : Prop := ∀ e ∈ p.handlers.entries, e.2 ≠ []

theorem Answered.addHandler (h : Answered p) (m : String) (s : Script) :
    Answered (Graph.addHandler p m s) := by
  intro e he
  rcases Entries.mem_insert he with rfl | earlier
  · simp
  · exact h e earlier

end Handlers

/-! ## Programs of graphs -/

namespace Graph

variable {g : Graph}

theorem foldl_scripts (g : Graph) (is : List Nat) (p : Program) :
    (is.foldl g.addRoot p).scripts = p.scripts ++ (is.filter g.starts).map g.script := by
  induction is generalizing p with
  | nil => simp
  | cons i is ih =>
    rw [List.foldl_cons, ih]
    rcases g.addRoot_cases p i with ⟨start, _, added⟩ | ⟨start, _, added⟩ | ⟨start, _, added⟩
    · rw [added, List.filter_cons_of_pos start]
      simp
    · rw [added, List.filter_cons_of_neg (by simp [start])]
      rfl
    · rw [added, List.filter_cons_of_neg (by simp [start])]

theorem foldl_handlersFor (g : Graph) (m : String) (is : List Nat) (p : Program) :
    (is.foldl g.addRoot p).handlersFor m = p.handlersFor m ++
      (is.filter fun i => g.receives i && g.heard i == m).map g.handler := by
  induction is generalizing p with
  | nil => simp
  | cons i is ih =>
    rw [List.foldl_cons, ih]
    rcases g.addRoot_cases p i with ⟨_, receive, added⟩ | ⟨_, receive, added⟩ | ⟨_, receive, added⟩
    · rw [added, List.filter_cons_of_neg (by simp [receive])]
      rfl
    · rw [added]
      by_cases same : g.heard i = m
      · rw [List.filter_cons_of_pos (by simp [receive, same]), same, handlersFor_addHandler_self]
        simp
      · rw [List.filter_cons_of_neg (by simp [same]), handlersFor_addHandler_ne (Ne.symm same)]
    · rw [added, List.filter_cons_of_neg (by simp [receive])]

theorem foldl_handlerCount (g : Graph) (is : List Nat) (p : Program) :
    (is.foldl g.addRoot p).handlerCount = p.handlerCount + is.countP g.receives := by
  induction is generalizing p with
  | nil => rfl
  | cons i is ih =>
    rw [List.foldl_cons, ih]
    rcases g.addRoot_cases p i with ⟨_, receive, added⟩ | ⟨_, receive, added⟩ | ⟨_, receive, added⟩
    · rw [added, List.countP_cons_of_neg (by simp [receive])]
      rfl
    · rw [added, List.countP_cons_of_pos receive, handlerCount_addHandler]
      omega
    · rw [added, List.countP_cons_of_neg (by simp [receive])]

theorem foldl_answered (g : Graph) (is : List Nat) {p : Program} (h : Answered p) :
    Answered (is.foldl g.addRoot p) := by
  induction is generalizing p with
  | nil => exact h
  | cons i is ih =>
    apply ih
    rcases g.addRoot_cases p i with ⟨_, _, added⟩ | ⟨_, _, added⟩ | ⟨_, _, added⟩
    · rw [added]
      exact h
    · rw [added]
      exact h.addHandler _ _
    · rw [added]
      exact h

end Graph

/-- What the blocks that stand on their own come to, in their order and in the program. -/
structure ByPlace (t : Tree) (g : Graph) : Prop where
  /-- From top to bottom, then from left to right, at the same place as in the document. -/
  ordered : ∃ rooted ordered : List (Block × Nat), Rooted t g rooted ∧ ordered.Perm rooted ∧
    ordered.Pairwise Precedes ∧ g.topLevel = ordered.map Prod.snd
  scripts : g.compile.scripts = (g.topLevel.filter g.starts).map g.script
  handlersFor : ∀ m, g.compile.handlersFor m =
    (g.topLevel.filter fun i => g.receives i && g.heard i == m).map g.handler
  answered : Answered g.compile
  handlerCount : g.compile.handlerCount = g.topLevel.countP g.receives

/-- The blocks that stand on their own are ordered by their place. In this order the start blocks
are the scripts of the program, and for every message the receive blocks that wait for it are its
handlers; no message is listed without one, and there are as many handlers as receive blocks. -/
theorem scripts_and_handlers_by_place (t : Tree) (g : Graph) (loaded : Graph.ofTree t = .ok g) :
    ByPlace t g := by
  obtain ⟨rooted, stands, perm⟩ := exists_rooted loaded
  constructor
  · exact ⟨rooted, t.placed, stands, perm, t.placed_precedes, (ofTree_eq loaded).2⟩
  · exact g.foldl_scripts g.topLevel .empty
  · intro m
    exact g.foldl_handlersFor m g.topLevel .empty
  · exact g.foldl_answered g.topLevel (p := .empty) fun e he => by cases he
  · exact (g.foldl_handlerCount g.topLevel .empty).trans (Nat.zero_add _)

/-- Two start blocks that differ in the sign of a zero only, and three receive blocks at one place:
one has the text of its field, the others a variable and a text on their inputs. -/
theorem scripts_and_handlers_by_place_zeros :
    let count : Block := .mk "variables_get" "v" 0 0 [("VAR", .string "n")] [] none
    let go : Block := .mk "text" "t" 0 0 [("TEXT", .string "go")] [] none
    let a : Block := .mk "bp_start" "a" 0 (-0) [] [] none
    let b : Block := .mk "bp_start" "b" 0 0 [] [] none
    let d : Block := .mk "bp_when_receive" "d" 1 0 [] [("MSG", ⟨some count, none⟩)] none
    let e : Block := .mk "bp_when_receive" "e" 1 0 [("MSG", .string "go")] [] none
    let f : Block := .mk "bp_when_receive" "f" 1 0 [] [("MSG", ⟨some go, none⟩)] none
    let t : Tree := ⟨[b, a, d, e, f], []⟩
    ∃ g, Graph.ofTree t = .ok g ∧ g.topLevel = [1, 0, 2, 4, 5] ∧ ByPlace t g ∧
      (g.compile.handlersFor "go").map Script.id = ["e", "f"] ∧
      (g.compile.handlersFor "").map Script.id = ["d"] := by
  intro count go a b d e f t
  obtain ⟨g, loaded⟩ : ∃ g, Graph.ofTree t = .ok g := ⟨_, rfl⟩
  have placed : t.placed = [(a, 1), (b, 0), (d, 2), (e, 4), (f, 5)] := by
    have above : b.notBehind a = false := by decide
    have before : a.notBehind d = true := by decide
    have before' : a.notBehind e = true := by decide
    have after : b.notBehind d = true := by decide
    have after' : b.notBehind e = true := by decide
    have same : d.notBehind e = true := by decide
    have same' : e.notBehind f = true := by decide
    change [(b, 0), (a, 1), (d, 2), (e, 4), (f, 5)].mergeSort _ = _
    simp [List.mergeSort, above, before, before', after, after', same, same']
  refine ⟨g, loaded, ?_, scripts_and_handlers_by_place t g loaded, ?_, ?_⟩
  · rw [(ofTree_eq loaded).2, placed]
    rfl
  · rw [Graph.compile_placed loaded, placed]
    decide +kernel
  · rw [Graph.compile_placed loaded, placed]
    decide +kernel

end BlockStage.Workspace
