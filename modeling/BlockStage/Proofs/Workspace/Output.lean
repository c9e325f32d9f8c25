import BlockStage.Proofs.Program.Texts
import BlockStage.Proofs.Workspace.Flattening
import BlockStage.Proofs.Workspace.Height

/-! # What compiling emits

A compiled program has finite numbers and nothing that is unknown, and it is no deeper than a text
may be. A block of a workspace takes up more containers than the command or the expression that it
stands for, up to the literals that stand in where nothing is connected.
-/
namespace BlockStage

open BlockStage.Json (Value Decoder Layout textLevels)

def Expr.supported : Expr → Bool
  | .bin _ l r | .cmp _ l r | .logic _ l r => l.supported && r.supported
  | .unsupported => false
  | _ => true

def Command.known : Command → Bool
  | .simple _ .unsupported => false
  | _ => true

def Command.Supported (c : Command) : Prop :=
  ∀ d ∈ c.preorder, d.known = true ∧ ∀ e ∈ d.operand?, e.supported = true

def Program.Supported (p : Program) : Prop := ∀ s ∈ p.roots, ∀ c ∈ s.commands, c.Supported

/-! ## Expressions and commands -/

/-- What is emitted as an expression, with at most so many containers. -/
structure Expr.Emitted (n : Nat) (e : Expr) : Prop where
  depth : e.depth ≤ n
  finite : e.finiteLiterals = true
  supported : e.supported = true

/-- What is emitted as a command, with at most so many containers. -/
structure Command.Emitted (n : Nat) (c : Command) : Prop where
  depth : c.depth ≤ n
  finite : c.FiniteLiterals
  supported : c.Supported

namespace Expr.Emitted

variable {n m : Nat} {e l r : Expr}

theorem mono (h : e.Emitted n) (le : n ≤ m) : e.Emitted m :=
  ⟨h.depth.trans le, h.finite, h.supported⟩

theorem num {x : Float} (finite : x.isFinite = true) : (Expr.num x).Emitted 1 :=
  ⟨(Expr.depth_num x).le, finite, rfl⟩

theorem zero : (Expr.num 0).Emitted 1 := num (by decide)

theorem bool (b : Bool) : (Expr.bool b).Emitted 1 := ⟨Nat.le_refl _, rfl, rfl⟩

theorem str (s : String) : (Expr.str s).Emitted 1 := ⟨Nat.le_refl _, rfl, rfl⟩

theorem var (name : String) : (Expr.var name).Emitted 1 := ⟨Nat.le_refl _, rfl, rfl⟩

variable (hl : l.Emitted n) (hr : r.Emitted n)
include hl hr

theorem bin (op : ArithOp) : (Expr.bin op l r).Emitted (n + 1) := by
  refine ⟨?_, ?_, ?_⟩
  · rw [Expr.depth_bin]
    exact Nat.succ_le_succ (Nat.max_le.mpr ⟨hl.depth, hr.depth⟩)
  · simp [Expr.finiteLiterals, hl.finite, hr.finite]
  · simp [Expr.supported, hl.supported, hr.supported]

theorem cmp (op : CompareOp) : (Expr.cmp op l r).Emitted (n + 1) := by
  refine ⟨?_, ?_, ?_⟩
  · rw [Expr.depth_cmp]
    exact Nat.succ_le_succ (Nat.max_le.mpr ⟨hl.depth, hr.depth⟩)
  · simp [Expr.finiteLiterals, hl.finite, hr.finite]
  · simp [Expr.supported, hl.supported, hr.supported]

theorem logic (op : LogicOp) : (Expr.logic op l r).Emitted (n + 1) := by
  refine ⟨?_, ?_, ?_⟩
  · rw [Expr.depth_logic]
    exact Nat.succ_le_succ (Nat.max_le.mpr ⟨hl.depth, hr.depth⟩)
  · simp [Expr.finiteLiterals, hl.finite, hr.finite]
  · simp [Expr.supported, hl.supported, hr.supported]

end Expr.Emitted

namespace Command.Emitted

variable {n m : Nat} {c : Command}

theorem mono (h : c.Emitted n) (le : n ≤ m) : c.Emitted m :=
  ⟨h.depth.trans le, h.finite, h.supported⟩

theorem of_parts (known : c.known = true) (operand : ∀ e ∈ c.operand?, e.Emitted (n + 1))
    (bodies : ∀ body ∈ c.bodies, ∀ d ∈ body, d.Emitted n) : c.Emitted (n + 2) := by
  refine ⟨?_, ?_, ?_⟩
  · exact Command.depth_le (fun e he => (operand e he).depth)
      fun body hb d hd => (bodies body hb d hd).depth
  · exact .of_parts (fun e he => (operand e he).finite)
      fun body hb d hd => (bodies body hb d hd).finite
  · exact Command.forall_preorder ⟨known, fun e he => (operand e he).supported⟩
      fun body hb d hd => (bodies body hb d hd).supported

end Command.Emitted

namespace Workspace

/-! ## Blocks -/

structure Meaning.Within (n : Nat) (m : Meaning) : Prop where
  value : ∀ e ∈ m.value?, e.Emitted n
  commands : ∀ c ∈ m.commands, c.Emitted n

/-- What is on the inputs of a block is a container deeper than what follows it. -/
structure Parts.Within (k : Nat) (q : Parts) : Prop where
  inputs : ∀ m ∈ q.inputs, m.2.Within (k - 1)
  after : ∀ c ∈ q.after, c.Emitted k

theorem Meaning.Within.mono {n k : Nat} {m : Meaning} (h : m.Within n) (le : n ≤ k) :
    m.Within k :=
  ⟨fun e he => (h.value e he).mono le, fun c hc => (h.commands c hc).mono le⟩

theorem fieldNumber_isFinite (text : Option String) : (fieldNumber text).isFinite = true := by
  unfold fieldNumber
  split
  · split
    · assumption
    · decide
  · decide

namespace Parts.Within

variable {k : Nat} {q : Parts} {name : String} {literal : Expr}

theorem operand (h : q.Within k) (plain : literal.Emitted 1) :
    (q.operand name literal).Emitted (k + 1) := by
  unfold Parts.operand
  cases found : (Entries.find? name q.inputs).bind Meaning.value? with
  | none => exact plain.mono (Nat.le_add_left 1 k)
  | some e =>
    obtain ⟨m, there, value⟩ := Option.bind_eq_some_iff.mp found
    obtain ⟨entry, mem, rfl⟩ := Option.map_eq_some_iff.mp there
    exact ((h.inputs entry (List.mem_of_find?_eq_some mem)).value e value).mono (by omega)

theorem body (h : q.Within k) : ∀ c ∈ q.body name, c.Emitted (k - 1) := by
  unfold Parts.body
  intro c hc
  cases found : Entries.find? name q.inputs with
  | none => simp [found] at hc
  | some m =>
    obtain ⟨entry, mem, rfl⟩ := Option.map_eq_some_iff.mp found
    rw [found] at hc
    exact (h.inputs entry (List.mem_of_find?_eq_some mem)).commands c hc

theorem message (h : q.Within k) : q.message.Emitted (k + 1) := h.operand (.str _)

theorem value (h : q.Within k) : ∀ e ∈ q.value?, e.Emitted (k + 2) := by
  have plain : ∀ {e : Expr}, e.Emitted 1 → e.Emitted (k + 2) := fun plain => plain.mono (by omega)
  intro e he
  unfold Parts.value? at he
  split at he
  · cases he
    exact plain (.num (fieldNumber_isFinite _))
  · cases he
    exact plain (.bool _)
  · cases he
    exact plain (.str _)
  · cases he
    exact plain (.var _)
  · cases he
    exact .bin (h.operand .zero) (h.operand .zero) _
  · cases he
    exact .cmp (h.operand .zero) (h.operand .zero) _
  · cases he
    exact .logic (h.operand (.bool _)) (h.operand (.bool _)) _
  · cases he

theorem instruction (h : q.Within k) {i : Instruction} (hi : q.instruction? = some i) :
    i ≠ .unsupported ∧ ∀ e ∈ i.operand?, e.Emitted (k + 1) := by
  have one : (Expr.num 1).Emitted 1 := .num (by decide)
  have zero : ∀ name, (q.operand name (.num 0)).Emitted (k + 1) := fun _ => h.operand .zero
  have delta : (q.operand "DELTA" (.num 1)).Emitted (k + 1) := h.operand one
  have message := h.message
  unfold Parts.instruction? at hi
  split at hi <;> cases hi <;> simp_all [Instruction.operand?]

theorem command (h : q.Within k) : ∀ c ∈ q.command?, c.Emitted (k + 2) := by
  have body : ∀ {name}, ∀ c ∈ q.body name, c.Emitted k :=
    fun c hc => (h.body c hc).mono (Nat.sub_le k 1)
  have zero : ∀ {name}, (q.operand name (.num 0)).Emitted (k + 1) := h.operand .zero
  have no : ∀ {name}, (q.operand name (.bool false)).Emitted (k + 1) := h.operand (.bool _)
  intro c hc
  unfold Parts.command? at hc
  split at hc
  · cases hc
    apply Command.Emitted.of_parts rfl
    · simpa [Command.operand?] using zero
    · simpa [Command.bodies] using body
  · cases hc
    apply Command.Emitted.of_parts rfl
    · simp [Command.operand?]
    · simpa [Command.bodies] using body
  · cases hc
    apply Command.Emitted.of_parts rfl
    · simpa [Command.operand?] using no
    · simpa [Command.bodies] using body
  · cases hc
    apply Command.Emitted.of_parts rfl
    · simpa [Command.operand?] using no
    · simpa [Command.bodies] using ⟨body, body⟩
  · obtain ⟨i, hi, rfl⟩ := Option.map_eq_some_iff.mp hc
    obtain ⟨known, operand⟩ := h.instruction hi
    apply Command.Emitted.of_parts
    · cases i <;> simp_all [Command.known]
    · exact operand
    · simp [Command.bodies]

theorem meaning (h : q.Within k) : q.meaning.Within (k + 2) := by
  refine ⟨h.value, fun c hc => ?_⟩
  rcases List.mem_append.mp hc with own | behind
  · exact h.command c (Option.mem_toList.mp own)
  · exact (h.after c behind).mono (by omega)

end Parts.Within

theorem Block.meaning_within {named : List Variable} {b : Block}
    (within : ∀ {k : Nat}, b.height ≤ k + 1 → (b.parts named).Within k) {k : Nat}
    (low : b.height + 1 ≤ k) : (b.parts named).meaning.Within k := by
  obtain ⟨j, same⟩ : ∃ j, b.height = j + 1 := by
    obtain ⟨kind, id, x, y, fields, inputs, next⟩ := b
    exact ⟨_, Block.height.eq_1 ..⟩
  have own := within same.le
  exact own.meaning.mono (by omega)

mutual

/-- A block means nothing that is deeper than the block is high, up to a literal. -/
theorem Block.parts_within (named : List Variable) : ∀ (b : Block) {k : Nat}, b.height ≤ k + 1 →
    (b.parts named).Within k
  | .mk kind id x y fields inputs next, k, low => by
    rw [Block.height] at low
    have low := Nat.max_le.mp (Nat.le_of_succ_le_succ low)
    rw [Block.parts]
    exact ⟨meanings_within named inputs low.1, following_within named next low.2⟩

theorem meanings_within (named : List Variable) : ∀ (inputs : List (String × Plug Block)) {k : Nat},
    heightInputs inputs ≤ k → ∀ m ∈ meanings named inputs, m.2.Within (k - 1)
  | [], _, _ => by
    rw [meanings]
    simp
  | (name, plug) :: rest, k, low => by
    rw [heightInputs] at low
    have low := Nat.max_le.mp low
    intro m hm
    rw [meanings] at hm
    rcases List.mem_append.mp hm with here | there
    · obtain ⟨meaning, found, rfl⟩ := Option.map_eq_some_iff.mp (Option.mem_toList.mp here)
      exact plugged_within named plug (by omega) meaning found
    · exact meanings_within named rest low.2 m there

theorem following_within (named : List Variable) : ∀ (next : Option (Plug Block)) {k : Nat},
    heightNext next ≤ k → ∀ c ∈ following named next, c.Emitted k
  | none, _, _ => by
    rw [following]
    simp
  | some plug, k, low => by
    rw [heightNext] at low
    intro c hc
    rw [following] at hc
    cases found : plugged? named plug with
    | none => simp [found] at hc
    | some m =>
      rw [found] at hc
      exact (plugged_within named plug low m found).commands c hc

theorem plugged_within (named : List Variable) : ∀ (plug : Plug Block) {k : Nat},
    heightPlug plug + 1 ≤ k → ∀ m ∈ plugged? named plug, m.Within k
  | ⟨some b, shadow⟩, k, low => by
    rw [heightPlug] at low
    rw [plugged?]
    rintro _ ⟨⟩
    exact Block.meaning_within (fun low => b.parts_within named low) low
  | ⟨none, some b⟩, k, low => by
    rw [heightPlug] at low
    rw [plugged?]
    rintro _ ⟨⟩
    exact Block.meaning_within (fun low => b.parts_within named low) low
  | ⟨none, none⟩, _, _ => by
    rw [plugged?]
    simp

end

/-! ## Programs -/

/-- What is emitted as a program, with at most so many containers around the handlers' commands. -/
structure Emitted (n : Nat) (p : Program) : Prop where
  scripts : ∀ s ∈ p.scripts, ∀ c ∈ s.commands, c.Emitted (n + 1)
  handlers : ∀ e ∈ p.handlers.entries, ∀ s ∈ e.2, ∀ c ∈ s.commands, c.Emitted n

namespace Emitted

variable {n : Nat} {p : Program}

theorem empty (n : Nat) : Emitted n .empty := by
  constructor
  · intro s hs
    cases hs
  · intro e he
    cases he

theorem root (h : Emitted n p) {s : Script} (hs : s ∈ p.roots) :
    ∀ c ∈ s.commands, c.Emitted (n + 1) := by
  rcases List.mem_append.mp hs with start | handler
  · exact h.scripts s start
  · obtain ⟨ss, there, hs⟩ := List.mem_flatten.mp handler
    obtain ⟨e, he, rfl⟩ := List.mem_map.mp there
    intro c hc
    exact (h.handlers e he s hs c hc).mono (Nat.le_succ n)

theorem finite (h : Emitted n p) : p.FiniteLiterals :=
  fun _ hs c hc => (h.root hs c hc).finite

theorem supported (h : Emitted n p) : p.Supported :=
  fun _ hs c hc => (h.root hs c hc).supported

theorem depth (h : Emitted n p) : p.toJson.depth ≤ n + 5 := by
  apply Program.depth_le
  · intro s hs c hc
    exact (h.scripts s hs c hc).depth
  · intro s hs c hc
    obtain ⟨ss, there, hs⟩ := List.mem_flatten.mp hs
    obtain ⟨e, he, rfl⟩ := List.mem_map.mp there
    exact (h.handlers e he s hs c hc).depth

theorem addTo {q : Parts} (h : Emitted n p) (within : q.Within (n + 1)) :
    Emitted n (q.addTo p) := by
  unfold Parts.addTo
  split
  · refine ⟨?_, h.handlers⟩
    intro s hs
    rcases List.mem_append.mp hs with earlier | last
    · exact h.scripts s earlier
    · rw [List.mem_singleton.mp last]
      exact within.after
  · refine ⟨h.scripts, ?_⟩
    intro e he
    rcases Entries.mem_insert he with rfl | earlier
    · intro s hs
      rcases List.mem_append.mp hs with earlier | last
      · unfold Program.handlersFor at earlier
        cases found : p.handlers.find? (q.message.literal?.getD "") with
        | none => simp [found] at earlier
        | some ss =>
          obtain ⟨entry, mem, rfl⟩ := Option.map_eq_some_iff.mp found
          rw [found] at earlier
          exact h.handlers entry (List.mem_of_find?_eq_some mem) s earlier
      · rw [List.mem_singleton.mp last]
        exact within.body
    · exact h.handlers e earlier
  · exact h

end Emitted

theorem Graph.agrees_of_root {t : Tree} {g : Graph} (loaded : Graph.ofTree t = .ok g) {i : Nat}
    (hi : i ∈ g.topLevel) : ∃ b ∈ t.blocks, g.Agrees g.size i (b.parts t.named) := by
  obtain ⟨nodes, roots⟩ := ofTree_eq loaded
  rw [roots] at hi
  obtain ⟨z, hz, rfl⟩ := List.mem_map.mp hi
  have placed := List.mem_mergeSort.mp hz
  refine ⟨z.1, ?_, ?_⟩
  · rw [← positions_blocks t.named 0 t.blocks]
    exact List.mem_map_of_mem placed
  · refine Graph.agrees_of_positions (Graph.holds_of_loaded loaded) ?_ z placed
    rw [← nodes, Array.length_toList]
    exact Nat.le_refl _

theorem Graph.compile_emitted {t : Tree} {g : Graph} {n : Nat} (loaded : Graph.ofTree t = .ok g)
    (low : ∀ b ∈ t.blocks, b.height ≤ n + 2) : Emitted n g.compile := by
  have step : ∀ roots : List Nat, (∀ i ∈ roots, i ∈ g.topLevel) → ∀ p, Emitted n p →
      Emitted n (roots.foldl g.addRoot p) := by
    intro roots
    induction roots with
    | nil => intro _ p hp; exact hp
    | cons i roots ih =>
      intro known p hp
      obtain ⟨b, hb, agrees⟩ := Graph.agrees_of_root loaded (known i List.mem_cons_self)
      refine ih (fun j hj => known j (List.mem_cons_of_mem i hj)) _ ?_
      rw [Graph.addRoot_eq agrees]
      exact hp.addTo (b.parts_within t.named (low b hb))
  exact step g.topLevel (fun _ hi => hi) _ (.empty n)

theorem Graph.ofText_ok {s : String} {g : Graph} (loaded : Graph.ofText s = .ok g) :
    ∃ t, (∀ b ∈ t.blocks, b.height ≤ 124) ∧ Graph.ofTree t = .ok g := by
  unfold ofText at loaded
  cases read : Decoder.text Tree.decoder s with
  | error f =>
    rw [read] at loaded
    cases loaded
  | ok t =>
    rw [read] at loaded
    obtain ⟨t', decoded, whole⟩ := Json.bind_ok read
    split at whole
    · cases whole
    · cases whole
      refine ⟨t, fun b hb => ?_, loaded⟩
      exact Nat.le_of_add_le_add_right (Tree.decoder_levels textLevels _ t decoded b hb)

/-- The text of the program that a workspace text is compiled to is read as that program, in either
layout. Its numbers are finite, nothing in it is unknown, and it is no deeper than a text may be. -/
theorem compiled_text_reads_back (s : String) (g : Graph) (loaded : Graph.ofText s = .ok g) :
    (∀ layout, Program.ofText (g.compile.toJson.render layout) = .ok g.compile) ∧
    g.compile.FiniteLiterals ∧ g.compile.Supported ∧ g.compile.toJson.depth ≤ textLevels := by
  obtain ⟨t, low, loaded⟩ := Graph.ofText_ok loaded
  have emitted : Emitted 122 g.compile := Graph.compile_emitted loaded low
  have depth : g.compile.toJson.depth ≤ textLevels := emitted.depth
  exact ⟨Program.ofText_render emitted.finite depth, emitted.finite, emitted.supported, depth⟩

def repeats : Nat → Value
  | 0 => .object [("type", .string "bp_break"), ("fields", .object [])]
  | n + 1 => .object [("type", .string "bp_repeat"),
      ("inputs", .object [("DO", .object [("block", repeats n)])])]

/-- A workspace that opens all containers that a text may open. -/
def deepest : Value :=
  .object [("blocks", .object [("blocks", .array [.object [("type", .string "bp_start"),
    ("next", .object [("block", repeats 40)])]])])]

theorem deepest_fits : deepest.Fits := by
  have inside : ∀ n, (repeats n).Fits := by
    intro n
    induction n with
    | zero => exact ⟨trivial, trivial, trivial⟩
    | succ n ih => exact ⟨trivial, ⟨⟨ih, trivial⟩, trivial⟩, trivial⟩
  exact ⟨⟨⟨⟨trivial, ⟨inside 40, trivial⟩, trivial⟩, trivial⟩, trivial⟩, trivial⟩

theorem compiled_text_reads_back_deepest : deepest.depth = textLevels ∧
    ∃ g, Graph.ofText (deepest.render .pretty) = .ok g ∧ g.compile.toJson.depth = 85 ∧
      (∀ layout, Program.ofText (g.compile.toJson.render layout) = .ok g.compile) ∧
      g.compile.FiniteLiterals ∧ g.compile.Supported ∧ g.compile.toJson.depth ≤ textLevels := by
  have found : (Graph.ofText (deepest.render .pretty)).toOption.map
      (fun g => g.compile.toJson.depth) = some 85 := by
    rw [Graph.ofText, Json.text_render Tree.decoder deepest_fits .pretty]
    decide +kernel
  refine ⟨by decide +kernel, ?_⟩
  cases loaded : Graph.ofText (deepest.render .pretty) with
  | error f =>
    rw [loaded] at found
    cases found
  | ok g =>
    rw [loaded] at found
    exact ⟨g, rfl, Option.some.inj found, compiled_text_reads_back _ g loaded⟩

end Workspace

end BlockStage
