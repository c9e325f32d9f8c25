import BlockStage.Proofs.Json.Reordering
import BlockStage.Proofs.Program.Literals

/-! # Exchanged programs

A program whose numbers are finite is read from the value that it is written as, with the members
of all objects in any order. A program that was read has finite numbers, so what is written of it
stands for the same program, whatever liberties the value took that it was read from.
-/
namespace BlockStage

open BlockStage.Json (Value Doc Fault Decoder then_ok)

/-! ## Fields -/

section Fields

variable {fields members : List (String × Value)} {key : String} {v w : Value}

theorem Members.under_of_not_mem (h : key ∉ members.map Prod.fst) :
    Members.under key (Doc.ofMembers members) = [] := by
  induction members with
  | nil => rfl
  | cons m ms ih =>
    rw [List.map_cons, List.mem_cons, not_or] at h
    rw [Doc.ofMembers, Members.under, List.filterMap_cons]
    dsimp only
    rw [if_neg (Ne.symm h.1)]
    exact ih h.2

theorem Members.under_of_mem (distinct : (members.map Prod.fst).Nodup) (h : (key, w) ∈ members) :
    Members.under key (Doc.ofMembers members) = [.ofValue w] := by
  induction members with
  | nil => cases h
  | cons m ms ih =>
    rw [List.map_cons, List.nodup_cons] at distinct
    rw [Doc.ofMembers, Members.under, List.filterMap_cons]
    dsimp only
    rcases List.mem_cons.mp h with rfl | later
    · rw [if_pos rfl]
      exact congrArg _ (Members.under_of_not_mem distinct.1)
    · have differs : m.1 ≠ key := by
        intro same
        exact distinct.1 (same ▸ List.mem_map_of_mem later)
      rw [if_neg differs]
      exact ih distinct.2 later

/-- The members of an object that was written with certain fields. -/
structure Fields (fields members : List (String × Value)) : Prop where
  distinct : (members.map Prod.fst).Nodup
  found : ∀ {key : String} {v : Value}, (key, v) ∈ fields →
    ∃ w, v.Reorders w ∧ (key, w) ∈ members

theorem Fields.of_reorders (h : (Value.object fields).Reorders w)
    (distinct : (fields.map Prod.fst).Nodup) :
    ∃ members, w = .object members ∧ Fields fields members := by
  obtain ⟨inOrder, members, rfl, same, perm⟩ := h.object
  refine ⟨members, rfl, ?_, ?_⟩
  · have keys : inOrder.map Prod.fst = fields.map Prod.fst := by
      clear perm distinct h
      induction same with
      | nil => rfl
      | cons first _ ih => rw [List.map_cons, List.map_cons, ih, first.1]
    exact (perm.map Prod.fst).nodup_iff.mp (keys ▸ distinct)
  · intro key v hv
    have there : ∃ w, v.Reorders w ∧ (key, w) ∈ inOrder := by
      clear perm distinct h
      induction same with
      | nil => cases hv
      | @cons m n ms ns first _ ih =>
        rcases List.mem_cons.mp hv with rfl | hv
        · refine ⟨n.2, first.2, ?_⟩
          rw [show key = n.1 from first.1]
          exact List.mem_cons_self
        · obtain ⟨w, same, there⟩ := ih hv
          exact ⟨w, same, List.mem_cons_of_mem n there⟩
    obtain ⟨w, same, there⟩ := there
    exact ⟨w, same, perm.mem_iff.mp there⟩

theorem Fields.once (f : Fields fields members) (h : (key, v) ∈ fields) :
    ∃ w, v.Reorders w ∧ w.depth ≤ Value.depthMembers members ∧
      Members.once key (Doc.ofMembers members) = .ok (.ofValue w) := by
  obtain ⟨w, same, there⟩ := f.found h
  refine ⟨w, same, Value.depth_le_of_member there, ?_⟩
  rw [Members.once, Members.under_of_mem f.distinct there]

theorem Fields.once_string {s : String} (f : Fields fields members)
    (h : (key, .string s) ∈ fields) :
    Members.once key (Doc.ofMembers members) = .ok (.string (.ok s)) := by
  obtain ⟨w, same, -, once⟩ := f.once h
  rw [once, same.string, Doc.ofValue]

theorem Fields.atMostOnce_bool {b : Bool} (f : Fields fields members)
    (h : (key, .bool b) ∈ fields) :
    Members.atMostOnce key (Doc.ofMembers members) = .ok (some (.bool b)) := by
  obtain ⟨w, same, there⟩ := f.found h
  rw [Members.atMostOnce, Members.under_of_mem f.distinct there, same.bool, Doc.ofValue]

end Fields

/-! ## Expressions -/

theorem ArithOp.ofSymbol?_symbol (op : ArithOp) : ofSymbol? op.symbol = some op := by
  cases op <;> rfl

theorem CompareOp.ofSymbol?_symbol (op : CompareOp) : ofSymbol? op.symbol = some op := by
  cases op <;> rfl

theorem LogicOp.ofSymbol?_symbol (op : LogicOp) : ofSymbol? op.symbol = some op := by
  cases op <;> rfl

namespace Expr

section Decoding

variable {members rest : List (String × Value)} {kind : String} {w : Value} {fuel : Nat}

theorem parts_ofValue (written : (Value.object (("kind", .string kind) :: rest)).Reorders w)
    (distinct : ("kind" :: rest.map Prod.fst).Nodup) (enough : w.depth ≤ fuel) :
    ∃ n members, fuel = n + 1 ∧ Value.depthMembers members ≤ n ∧
      Fields (("kind", .string kind) :: rest) members ∧
      parts (.ofValue w) =
        .ok (kind, fun fs => fs.mapM fun k => Members.once k (Doc.ofMembers members)) := by
  obtain ⟨members, rfl, f⟩ := Fields.of_reorders written distinct
  rw [Value.depth] at enough
  refine ⟨fuel - 1, members, by omega, by omega, f, ?_⟩
  rw [Doc.ofValue, parts, f.once_string List.mem_cons_self]
  rfl

theorem operands_ofMembers {α : Type} {op : α} {symbol : String} {l r : Expr}
    {sub : Doc → Except Fault Expr} {ofSymbol? : String → Option α}
    (make : α → Expr → Expr → Expr)
    (f : Fields [("kind", .string kind), ("op", .string symbol), ("left", l.toJson),
      ("right", r.toJson)] members)
    (known : ofSymbol? symbol = some op)
    (left : ∀ {w : Value}, l.toJson.Reorders w → w.depth ≤ Value.depthMembers members →
      sub (.ofValue w) = .ok l)
    (right : ∀ {w : Value}, r.toJson.Reorders w → w.depth ≤ Value.depthMembers members →
      sub (.ofValue w) = .ok r) :
    (["op", "left", "right"].mapM fun k => Members.once k (Doc.ofMembers members)) >>=
      operands sub ofSymbol? make = .ok (make op l r) := by
  obtain ⟨wl, sameLeft, shallowLeft, onceLeft⟩ := f.once (show ("left", l.toJson) ∈ _ by simp)
  obtain ⟨wr, sameRight, shallowRight, onceRight⟩ := f.once (show ("right", r.toJson) ∈ _ by simp)
  have onceOp := f.once_string (show ("op", Value.string symbol) ∈ _ by simp)
  simp only [List.mapM_cons, List.mapM_nil, onceOp, onceLeft, onceRight, bind, Except.bind, pure,
    Except.pure, operands, operator, operatorName, known, Decoder.required,
    left sameLeft shallowLeft, right sameRight shallowRight]

theorem single_ofMembers {α : Type} {key : String} {a : α} {d : Decoder α} {v : Value}
    (make : α → Expr) (f : Fields [("kind", .string kind), (key, v)] members)
    (read : ∀ {w : Value}, v.Reorders w → d 0 (.ofValue w) = .ok a) :
    ([key].mapM fun k => Members.once k (Doc.ofMembers members)) >>= single d make =
      .ok (make a) := by
  obtain ⟨w, same, -, once⟩ := f.once (show (key, v) ∈ _ by simp)
  simp only [List.mapM_cons, List.mapM_nil, once, bind, Except.bind, pure, Except.pure, single,
    read same]
  rfl

end Decoding

theorem decodeWithin_toJson {e : Expr} (finite : e.finiteLiterals = true) {w : Value}
    (written : e.toJson.Reorders w) {fuel : Nat} (enough : w.depth ≤ fuel) :
    decodeWithin fuel (.ofValue w) = .ok e := by
  induction e generalizing w fuel with
  | num x =>
    obtain ⟨fuel, members, rfl, -, f, parts⟩ := parts_ofValue written (by simp) enough
    rw [decodeWithin, parts]
    refine single_ofMembers .num f fun same => ?_
    have number : Value.ofFloat x = .number (.float x) := if_pos finite
    rw [number] at same
    rw [same.number]
    rfl
  | bool b =>
    obtain ⟨fuel, members, rfl, -, f, parts⟩ := parts_ofValue written (by simp) enough
    rw [decodeWithin, parts]
    refine single_ofMembers .bool f fun same => ?_
    rw [same.bool]
    rfl
  | str s =>
    obtain ⟨fuel, members, rfl, -, f, parts⟩ := parts_ofValue written (by simp) enough
    rw [decodeWithin, parts]
    refine single_ofMembers .str f fun same => ?_
    rw [same.string]
    rfl
  | var name =>
    obtain ⟨fuel, members, rfl, -, f, parts⟩ := parts_ofValue written (by simp) enough
    rw [decodeWithin, parts]
    refine single_ofMembers .var f fun same => ?_
    rw [same.string]
    rfl
  | bin op l r ihl ihr =>
    obtain ⟨fuel, members, rfl, shallow, f, parts⟩ := parts_ofValue written (by simp) enough
    rw [finiteLiterals, Bool.and_eq_true] at finite
    rw [decodeWithin, parts]
    exact operands_ofMembers .bin f op.ofSymbol?_symbol
      (fun same less => ihl finite.1 same (less.trans shallow))
      (fun same less => ihr finite.2 same (less.trans shallow))
  | cmp op l r ihl ihr =>
    obtain ⟨fuel, members, rfl, shallow, f, parts⟩ := parts_ofValue written (by simp) enough
    rw [finiteLiterals, Bool.and_eq_true] at finite
    rw [decodeWithin, parts]
    exact operands_ofMembers .cmp f op.ofSymbol?_symbol
      (fun same less => ihl finite.1 same (less.trans shallow))
      (fun same less => ihr finite.2 same (less.trans shallow))
  | logic op l r ihl ihr =>
    obtain ⟨fuel, members, rfl, shallow, f, parts⟩ := parts_ofValue written (by simp) enough
    rw [finiteLiterals, Bool.and_eq_true] at finite
    rw [decodeWithin, parts]
    exact operands_ofMembers .logic f op.ofSymbol?_symbol
      (fun same less => ihl finite.1 same (less.trans shallow))
      (fun same less => ihr finite.2 same (less.trans shallow))
  | unsupported =>
    obtain ⟨fuel, members, rfl, -, -, parts⟩ := parts_ofValue written (by simp) enough
    rw [decodeWithin, parts]
    rfl

end Expr

/-! ## Commands -/

namespace Command

section Decoding

variable {fields members : List (String × Value)} {id type : String} {fuel levels : Nat}

/-- One member of a command is taken in. -/
def takeMember (levels : Nat) (id : Option String) (m : Except Fault String × Doc) :
    Except Fault (Option String) := do
  let key ← m.1
  if key = "block_id" then
    match id with
    | some _ => .error .unfit
    | none => return some (← Decoder.string levels m.2)
  else
    let _ ← Decoder.any levels m.2
    return id

theorem takeMember_other {m : String × Value} (other : m.1 ≠ "block_id")
    (shallow : m.2.depth ≤ levels) (id : Option String) :
    takeMember levels id (.ok m.1, .ofValue m.2) = .ok id := by
  obtain ⟨w, accepted⟩ := Json.any_accepts m.2 levels shallow
  simp only [takeMember, bind, Except.bind, if_neg other, accepted]
  rfl

theorem takeMembers_others (others : "block_id" ∉ members.map Prod.fst)
    (shallow : Value.depthMembers members ≤ levels) (id : Option String) :
    (Doc.ofMembers members).foldlM (takeMember levels) id = .ok id := by
  induction members with
  | nil => rfl
  | cons m ms ih =>
    rw [List.map_cons, List.mem_cons, not_or] at others
    rw [Value.depthMembers] at shallow
    rw [Doc.ofMembers, List.foldlM_cons, takeMember_other (Ne.symm others.1) (by omega)]
    exact ih others.2 (by omega)

theorem takeIn_ofMembers (distinct : (members.map Prod.fst).Nodup)
    (h : ("block_id", .string id) ∈ members) (shallow : Value.depthMembers members ≤ levels) :
    takeIn levels (Doc.ofMembers members) = .ok (some id) := by
  change (Doc.ofMembers members).foldlM (takeMember levels) none = .ok (some id)
  induction members with
  | nil => cases h
  | cons m ms ih =>
    rw [List.map_cons, List.nodup_cons] at distinct
    rw [Value.depthMembers] at shallow
    rw [Doc.ofMembers, List.foldlM_cons]
    rcases List.mem_cons.mp h with rfl | later
    · exact takeMembers_others distinct.1 (by omega) (some id)
    · have other : m.1 ≠ "block_id" := by
        intro same
        exact distinct.1 (same ▸ List.mem_map_of_mem later)
      rw [takeMember_other other (by omega)]
      exact ih distinct.2 later (by omega)

/-- A command that was written, with its fields after its block identifier and its type. -/
structure Written (id type : String) (fields members : List (String × Value)) (levels : Nat) :
    Prop where
  fields : Fields (("block_id", .string id) :: ("type", .string type) :: fields) members
  shallow : Value.depthMembers members ≤ levels

theorem Written.of_reorders {w : Value} (h : (objectJson id type fields).Reorders w)
    (distinct : ("block_id" :: "type" :: fields.map Prod.fst).Nodup) (depth : w.depth ≤ levels) :
    ∃ n members, levels = n + 1 ∧ w = .object members ∧ Written id type fields members n := by
  obtain ⟨members, rfl, f⟩ := Fields.of_reorders h distinct
  rw [Value.depth] at depth
  exact ⟨levels - 1, members, by omega, rfl, f, by omega⟩

namespace Written

theorem takeIn (w : Written id type fields members levels) :
    Command.takeIn levels (Doc.ofMembers members) = .ok (some id) := by
  obtain ⟨v, same, there⟩ := w.fields.found List.mem_cons_self
  rw [same.string] at there
  exact takeIn_ofMembers w.fields.distinct there w.shallow

theorem typed (w : Written id type fields members levels) :
    Members.once "type" (Doc.ofMembers members) = .ok (.string (.ok type)) :=
  w.fields.once_string (List.mem_cons_of_mem _ List.mem_cons_self)

theorem expr {key : String} {e : Expr} (w : Written id type fields members levels)
    (h : (key, e.toJson) ∈ fields) (finite : e.finiteLiterals = true) :
    Members.once key (Doc.ofMembers members) >>= Expr.decodeWithin (levels + 1) = .ok e := by
  obtain ⟨v, same, shallow, once⟩ :=
    w.fields.once (List.mem_cons_of_mem _ (List.mem_cons_of_mem _ h))
  rw [once]
  exact Expr.decodeWithin_toJson finite same ((shallow.trans w.shallow).trans (Nat.le_succ levels))

theorem name {n : String} (w : Written id type fields members levels)
    (h : ("name", .string n) ∈ fields) :
    Members.once "name" (Doc.ofMembers members) >>= Decoder.string levels = .ok n := by
  rw [w.fields.once_string (List.mem_cons_of_mem _ (List.mem_cons_of_mem _ h))]
  rfl

theorem wait {b : Bool} (w : Written id type fields members levels)
    (h : ("wait", .bool b) ∈ fields) :
    Members.atMostOnce "wait" (Doc.ofMembers members) = .ok (some (.bool b)) :=
  w.fields.atMostOnce_bool (List.mem_cons_of_mem _ (List.mem_cons_of_mem _ h))

theorem body {key : String} {cs : List Command} (w : Written id type fields members levels)
    (h : (key, .array (listJson cs)) ∈ fields)
    (read : ∀ {ws : List Value} {n : Nat}, List.Forall₂ Value.Reorders (listJson cs) ws →
      Value.depthItems ws ≤ n → n < levels →
      List.Forall₂ (fun v c => decodeWithin fuel n (.ofValue v) = .ok c) ws cs) :
    Members.once key (Doc.ofMembers members) >>= Decoder.list (decodeWithin fuel) levels =
      .ok cs := by
  obtain ⟨v, same, shallow, once⟩ :=
    w.fields.once (List.mem_cons_of_mem _ (List.mem_cons_of_mem _ h))
  obtain ⟨ws, rfl, items⟩ := same.array
  have shallow := shallow.trans w.shallow
  rw [Value.depth] at shallow
  obtain ⟨levels, rfl⟩ : ∃ n, levels = n + 1 := ⟨levels - 1, by omega⟩
  rw [once]
  exact Json.list_ofValue (read items (Nat.le_of_succ_le_succ shallow) (Nat.lt_succ_self levels))

end Written

theorem decodeWithin_of_reorders {c : Command} {w : Value}
    (written : (objectJson id type fields).Reorders w)
    (distinct : ("block_id" :: "type" :: fields.map Prod.fst).Nodup) (depth : w.depth ≤ levels)
    (more : levels < fuel)
    (read : ∀ {fuel levels : Nat} {members : List (String × Value)},
      Written id type fields members levels → levels < fuel →
      decodeWithin (fuel + 1) (levels + 1) (.object (Doc.ofMembers members) none) = .ok c) :
    decodeWithin fuel levels (.ofValue w) = .ok c := by
  obtain ⟨fuel, rfl⟩ : ∃ n, fuel = n + 1 := ⟨fuel - 1, by omega⟩
  obtain ⟨levels, members, rfl, rfl, w⟩ := Written.of_reorders written distinct depth
  rw [Doc.ofValue]
  exact read w (by omega)

end Decoding

theorem decodeWithin_simple {id : String} {i : Instruction}
    (finite : ∀ e ∈ i.operand?, e.finiteLiterals = true) {w : Value}
    (written : (objectJson id i.name i.fieldsJson).Reorders w) {fuel levels : Nat}
    (depth : w.depth ≤ levels) (more : levels < fuel) :
    decodeWithin fuel levels (.ofValue w) = .ok (.simple id i) := by
  have distinct : ("block_id" :: "type" :: i.fieldsJson.map Prod.fst).Nodup := by
    cases i <;> simp [Instruction.fieldsJson]
  refine decodeWithin_of_reorders written distinct depth more fun w less => ?_
  rw [decodeWithin]
  refine then_ok w.takeIn (then_ok rfl (then_ok w.typed (then_ok rfl ?_)))
  have second {a b : String × Value} : b ∈ [a, b] := List.mem_cons_of_mem _ List.mem_cons_self
  cases i with
  | move e | turn e | wait e => exact then_ok (w.expr List.mem_cons_self (finite e rfl)) rfl
  | setVar n e | changeVar n e =>
    exact then_ok (w.name List.mem_cons_self) (then_ok (w.expr second (finite e rfl)) rfl)
  | deleteVar n => exact then_ok (w.name List.mem_cons_self) rfl
  | broadcast e b =>
    exact then_ok (w.expr List.mem_cons_self (finite e rfl)) (then_ok (w.wait second) rfl)
  | breakLoop | continueLoop | stopAll | stopThis | unsupported => rfl

mutual

theorem decodeWithin_toJson : ∀ (c : Command), c.FiniteLiterals → ∀ {w : Value} {fuel levels : Nat},
    c.toJson.Reorders w → w.depth ≤ levels → levels < fuel →
    decodeWithin fuel levels (.ofValue w) = .ok c
  | .simple id i, finite, w, fuel, levels, written, depth, more => by
    rw [toJson] at written
    exact decodeWithin_simple (fun e h => finite.operand h) written depth more
  | .repeatTimes id e body, finite, w, fuel, levels, written, depth, more => by
    rw [toJson] at written
    refine decodeWithin_of_reorders written (by simp) depth more fun w less => ?_
    rw [decodeWithin]
    refine then_ok w.takeIn (then_ok rfl (then_ok w.typed (then_ok rfl ?_)))
    refine then_ok (w.expr (by simp) (finite.operand rfl)) (then_ok (w.body (by simp) ?_) rfl)
    intro ws n same shallow below
    exact decodeAll_listJson body (fun d => finite.body (by simp [bodies])) same shallow (by omega)
  | .forever id body, finite, w, fuel, levels, written, depth, more => by
    rw [toJson] at written
    refine decodeWithin_of_reorders written (by simp) depth more fun w less => ?_
    rw [decodeWithin]
    refine then_ok w.takeIn (then_ok rfl (then_ok w.typed (then_ok rfl ?_)))
    refine then_ok (w.body (by simp) ?_) rfl
    intro ws n same shallow below
    exact decodeAll_listJson body (fun d => finite.body (by simp [bodies])) same shallow (by omega)
  | .ifThen id e body, finite, w, fuel, levels, written, depth, more => by
    rw [toJson] at written
    refine decodeWithin_of_reorders written (by simp) depth more fun w less => ?_
    rw [decodeWithin]
    refine then_ok w.takeIn (then_ok rfl (then_ok w.typed (then_ok rfl ?_)))
    refine then_ok (w.expr (by simp) (finite.operand rfl)) (then_ok (w.body (by simp) ?_) rfl)
    intro ws n same shallow below
    exact decodeAll_listJson body (fun d => finite.body (by simp [bodies])) same shallow (by omega)
  | .ifElse id e thenBody elseBody, finite, w, fuel, levels, written, depth, more => by
    rw [toJson] at written
    refine decodeWithin_of_reorders written (by simp) depth more fun w less => ?_
    rw [decodeWithin]
    refine then_ok w.takeIn (then_ok rfl (then_ok w.typed (then_ok rfl ?_)))
    refine then_ok (w.expr (by simp) (finite.operand rfl))
      (then_ok (w.body (by simp) ?_) (then_ok (w.body (by simp) ?_) rfl))
    · intro ws n same shallow below
      exact decodeAll_listJson thenBody (fun d => finite.body (by simp [bodies])) same shallow
        (by omega)
    · intro ws n same shallow below
      exact decodeAll_listJson elseBody (fun d => finite.body (by simp [bodies])) same shallow
        (by omega)

theorem decodeAll_listJson : ∀ (cs : List Command), (∀ c ∈ cs, c.FiniteLiterals) →
    ∀ {ws : List Value} {fuel levels : Nat}, List.Forall₂ Value.Reorders (listJson cs) ws →
    Value.depthItems ws ≤ levels → levels < fuel →
    List.Forall₂ (fun v c => decodeWithin fuel levels (.ofValue v) = .ok c) ws cs
  | [], _, ws, fuel, levels, written, _, _ => by
    cases written
    exact .nil
  | c :: cs, finite, ws, fuel, levels, written, depth, more => by
    rw [listJson] at written
    cases written with
    | cons first rest =>
      rw [Value.depthItems] at depth
      exact .cons (decodeWithin_toJson c (finite c List.mem_cons_self) first (by omega) more)
        (decodeAll_listJson cs (fun d hd => finite d (List.mem_cons_of_mem c hd)) rest (by omega)
          more)

end

end Command

/-! ## Programs -/

theorem Script.decoder_toJson {s : Script} (finite : s.FiniteLiterals) {w : Value}
    (written : s.toJson.Reorders w) {levels : Nat} (depth : w.depth ≤ levels) :
    decoder levels (.ofValue w) = .ok s := by
  obtain ⟨x, x', name, body, order⟩ := written.pair
  obtain rfl := name.string
  obtain ⟨ws, rfl, items⟩ := body.array
  have levels_eq : ∃ n, levels = n + 2 ∧ Value.depthItems ws ≤ n := by
    rcases order with rfl | rfl <;>
      simp only [Value.depth, Value.depthMembers, Nat.max_zero, Nat.zero_max] at depth <;>
      exact ⟨levels - 2, by omega, by omega⟩
  obtain ⟨levels, rfl, shallow⟩ := levels_eq
  have read : Decoder.list Command.decoder (levels + 1) (.ofValue (.array ws)) = .ok s.commands :=
    Json.list_ofValue (Command.decodeAll_listJson s.commands finite items shallow
      (Nat.lt_succ_self levels))
  exact then_ok (Json.record_ofValue (by decide) rfl (then_ok read rfl) (then_ok read rfl) rfl
    order) rfl

theorem Script.decodeAll_toJson {ss : List Script} (finite : ∀ s ∈ ss, s.FiniteLiterals)
    {ws : List Value} (written : List.Forall₂ Value.Reorders (ss.map Script.toJson) ws)
    {levels : Nat} (depth : Value.depthItems ws ≤ levels) :
    List.Forall₂ (fun v s => decoder levels (.ofValue v) = .ok s) ws ss := by
  induction ss generalizing ws with
  | nil =>
    cases written
    exact .nil
  | cons s ss ih =>
    cases written with
    | cons first rest =>
      rw [Value.depthItems] at depth
      exact .cons (decoder_toJson (finite s List.mem_cons_self) first (by omega))
        (ih (fun s' hs => finite s' (List.mem_cons_of_mem s hs)) rest (by omega))

namespace Program

def handlersJson (es : Entries (List Script)) : List (String × Value) :=
  es.map fun e => (e.1, .array (e.2.map Script.toJson))

theorem readHandlers {es : Entries (List Script)} (finite : ∀ e ∈ es, ∀ s ∈ e.2, s.FiniteLiterals)
    {ns : List (String × Value)} (written : List.Forall₂ Value.SameMember (handlersJson es) ns)
    {levels : Nat} (depth : ∀ n ∈ ns, n.2.depth ≤ levels) :
    List.Forall₂ (fun n e => n.1 = e.1 ∧
      Decoder.list Script.decoder levels (.ofValue n.2) = .ok e.2) ns es := by
  induction es generalizing ns with
  | nil =>
    cases written
    exact .nil
  | cons e es ih =>
    rcases written with _ | @⟨_, ⟨key, x⟩, _, ns, ⟨rfl, same⟩, rest⟩
    refine .cons ⟨rfl, ?_⟩ (ih (fun e' he => finite e' (List.mem_cons_of_mem e he)) rest
      fun n hn => depth n (List.mem_cons_of_mem _ hn))
    obtain ⟨ws, rfl, items⟩ := same.array
    have shallow := depth _ List.mem_cons_self
    rw [Value.depth] at shallow
    obtain ⟨levels, rfl⟩ : ∃ n, levels = n + 1 := ⟨levels - 1, by omega⟩
    exact Json.list_ofValue
      (Script.decodeAll_toJson (finite e List.mem_cons_self) items (by omega))

/-- Handlers are read in the order of their messages, whatever the order they were written in. -/
theorem entries_handlersJson {d : Dict (List Script)}
    (finite : ∀ e ∈ d.entries, ∀ s ∈ e.2, s.FiniteLiterals) {w : Value}
    (written : (Value.object (handlersJson d.entries)).Reorders w) {levels : Nat}
    (depth : w.depth ≤ levels + 1) :
    Decoder.entries (Decoder.list Script.decoder) (levels + 1) (.ofValue w) = .ok d.entries := by
  obtain ⟨inOrder, members, rfl, same, perm⟩ := written.object
  rw [Value.depth] at depth
  have read := readHandlers finite same fun n hn =>
    (Value.depth_le_of_member (perm.mem_iff.mp hn)).trans (Nat.le_of_succ_le_succ depth)
  obtain ⟨es, read, perm⟩ := List.perm_comp_forall₂ perm.symm read
  rw [Json.entries_ofValue read, Entries.ofList_perm perm
    ((perm.map Prod.fst).nodup_iff.mpr d.sorted.distinct), Entries.ofList_sorted d.sorted]

theorem decoder_toJson {p : Program} (finite : p.FiniteLiterals) {w : Value}
    (written : p.toJson.Reorders w) {levels : Nat} (depth : w.depth ≤ levels) :
    decoder levels (.ofValue w) = .ok p := by
  obtain ⟨x, x', scripts, handlers, order⟩ := written.pair
  obtain ⟨ws, rfl, items⟩ := scripts.array
  have levels_eq : ∃ n, levels = n + 2 ∧ Value.depthItems ws ≤ n ∧ x'.depth ≤ n + 1 := by
    rcases order with rfl | rfl <;>
      simp only [Value.depth, Value.depthMembers, Nat.max_zero] at depth <;>
      exact ⟨levels - 2, by omega, by omega, by omega⟩
  obtain ⟨levels, rfl, shallow, shallow'⟩ := levels_eq
  have finite' : ∀ e ∈ p.handlers.entries, ∀ s ∈ e.2, s.FiniteLiterals := by
    intro e he s hs
    exact finite s (List.mem_append_right _ (List.mem_flatten_of_mem (List.mem_map_of_mem he) hs))
  have read : Decoder.list Script.decoder (levels + 1) (.ofValue (.array ws)) = .ok p.scripts :=
    Json.list_ofValue (Script.decodeAll_toJson
      (fun s hs => finite s (List.mem_append_left _ hs)) items shallow)
  have read' := entries_handlersJson finite' handlers shallow'
  refine then_ok (Json.record_ofValue (by decide) (then_ok read rfl) (then_ok read' rfl)
    (then_ok read' rfl) (then_ok read rfl) order) ?_
  refine congrArg (fun handlers => Except.ok (Program.mk p.scripts handlers)) ?_
  exact p.handlers.ofList_entries

theorem ofJson_toJson {p : Program} (finite : p.FiniteLiterals) {w : Value}
    (written : p.toJson.Reorders w) : ofJson w = .ok p := by
  rw [ofJson, Decoder.value, decoder_toJson finite written (Nat.le_refl _)]

theorem finiteLiterals_of_ofJson {j : Value} (fits : j.Fits) {p : Program}
    (read : ofJson j = .ok p) : p.FiniteLiterals := by
  unfold ofJson Decoder.value at read
  split at read
  next q found =>
    cases read
    exact decoder_yields (sound_ofValue fits) p found
  next => cases read

theorem finiteLiterals_of_ofText {s : String} {p : Program} (read : ofText s = .ok p) :
    p.FiniteLiterals := by
  unfold ofText Decoder.text at read
  obtain ⟨q, found, read⟩ := Json.bind_ok read
  split at read
  · cases read
  · cases read
    exact decoder_yields (Json.ofChars_sound _) p found

/-- The program is read from its value, as it is written and with the members of objects in any
other order. -/
def RoundTrips (p : Program) : Prop :=
  ofJson p.toJson = .ok p ∧ ∀ w : Value, p.toJson.Reorders w → ofJson w = .ok p

theorem FiniteLiterals.roundTrips {p : Program} (finite : p.FiniteLiterals) : p.RoundTrips := by
  constructor
  · exact ofJson_toJson finite (.refl _)
  · intro w written
    exact ofJson_toJson finite written

end Program

/-- A program with finite numbers is read back from its value. So is every program that was itself
read, from a value whose numbers are those of JSON or from any text. -/
theorem program_exchange_round_trips :
    (∀ p : Program, p.FiniteLiterals → p.RoundTrips) ∧
    (∀ (j : Value) (p : Program), j.Fits → Program.ofJson j = .ok p → p.RoundTrips) ∧
    (∀ (s : String) (p : Program), Program.ofText s = .ok p → p.RoundTrips) := by
  refine ⟨?_, ?_, ?_⟩
  · intro p finite
    exact finite.roundTrips
  · intro j p fits read
    exact (Program.finiteLiterals_of_ofJson fits read).roundTrips
  · intro s p read
    exact (Program.finiteLiterals_of_ofText read).roundTrips

/-- A value with liberties: a type by its number and behind other members, arrays for records and
for an expression, an unknown type, members that mean nothing, and no identifiers and handlers. -/
def liberalValue : Value :=
  .array [.array [.array [.string "main", .array [
    .object [("body", .array [.object [("type", .string "dance"), ("partner", .null)]]),
      ("times", .array [.string "num", .number (.int 3)]), ("extra", .bool true),
      ("type", .number (.int 3))]]]]]

def liberalProgram : Program where
  scripts := [⟨"main", [.repeatTimes "" (.num (Json.Number.toFloat (.int 3)))
    [.simple "" .unsupported]]⟩]
  handlers := .empty

theorem liberal_program_round_trips :
    liberalValue.Fits ∧ Program.ofJson liberalValue = .ok liberalProgram ∧
    liberalProgram.FiniteLiterals ∧
    Program.ofJson liberalProgram.toJson = .ok liberalProgram ∧
    Program.ofJson (.object [("handlers", .object []),
      ("scripts", .array (liberalProgram.scripts.map Script.toJson))]) = .ok liberalProgram := by
  have fits : liberalValue.Fits := by
    simp only [liberalValue, Value.Fits, Value.FitsItems, Value.FitsMembers, Json.Number.Fits,
      and_true, true_and]
    decide
  have read : Program.ofJson liberalValue = .ok liberalProgram := rfl
  have finite := Program.finiteLiterals_of_ofJson fits read
  have swapped : liberalProgram.toJson.Reorders (.object [("handlers", .object []),
      ("scripts", .array (liberalProgram.scripts.map Script.toJson))]) := by
    rw [Program.toJson, Value.Reorders]
    exact ⟨_, _, rfl, .refl _, .swap _ _ _⟩
  exact ⟨fits, read, finite, (program_exchange_round_trips.2.1 _ _ fits read).1,
    (program_exchange_round_trips.1 _ finite).2 _ swapped⟩

end BlockStage
