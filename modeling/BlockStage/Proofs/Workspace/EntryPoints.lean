import BlockStage.Proofs.Json.Agreement
import BlockStage.Workspace.Graph

/-! # Workspaces from texts and from values

A workspace can be read from its text, or from a value that was read before. Both come to the same,
whatever the order in which a text has its members: a workspace, or an identifier that is used
twice, or a refusal.
-/
namespace BlockStage.Workspace

open BlockStage.Json (Value Doc Decoder Document Agrees exists_swapped)

section Readers

variable {k : Nat}

theorem Plug.decoder_agrees {block block' : Decoder Block} (h : Agrees k block block') :
    Agrees (k + 1) (Plug.decoder block) (Plug.decoder block') := by
  refine Agrees.bind (.record ?_ ?_ _) _
  · intro key draft
    constructor
    intro n m v w a low same
    split
    · exact (h.optional.bind _).take low same
    · exact (h.optional.bind _).take low same
  · intro key known key' known' differ n doc doc' a b c first second
    -- fields that differ set different parts of the draft
    simp only [List.mem_cons, List.not_mem_nil, or_false] at known known'
    rcases known with rfl | rfl <;> rcases known' with rfl | rfl
    all_goals try exact absurd rfl differ
    all_goals exact exists_swapped first second (by rintro u v ⟨⟩ ⟨⟩; exact ⟨_, rfl, rfl⟩)

theorem Block.decodeWithin_agrees (fuel : Nat) : ∀ {k fuel' : Nat}, k ≤ fuel' →
    Agrees k (decodeWithin fuel) (decodeWithin fuel') := by
  induction fuel with
  | zero =>
    intro k fuel' _
    constructor
    intro n m v w a _ _ read
    cases read
  | succ fuel ih =>
    intro k fuel' enough
    cases k with
    | zero => exact .none _ _
    | succ k =>
      obtain ⟨fuel', rfl⟩ : ∃ f, fuel' = f + 1 := ⟨fuel' - 1, by omega⟩
      have plug := Plug.decoder_agrees (ih (Nat.le_of_succ_le_succ enough))
      have connected := plug.mono (Nat.le_succ k)
      refine Agrees.bind (.record ?_ ?_ _) _
      · intro key draft
        constructor
        intro n m v w a low same
        split
        · exact ((Agrees.string k).bind _).take low same
        · exact ((Agrees.string k).bind _).take low same
        · exact ((Agrees.float k).bind _).take low same
        · exact ((Agrees.float k).bind _).take low same
        · exact (((Agrees.any k).entries.mono (Nat.le_succ k)).bind _).take low same
        · exact ((connected.entries.mono (Nat.le_succ k)).bind _).take low same
        · exact (connected.optional.bind _).take low same
      · intro key known key' known' differ n doc doc' a b c first second
        simp only [List.mem_cons, List.not_mem_nil, or_false] at known known'
        rcases known with rfl | rfl | rfl | rfl | rfl | rfl | rfl <;>
          rcases known' with rfl | rfl | rfl | rfl | rfl | rfl | rfl
        all_goals try exact absurd rfl differ
        all_goals exact exists_swapped first second (by rintro u v ⟨⟩ ⟨⟩; exact ⟨_, rfl, rfl⟩)

theorem Block.decoder_agrees (k : Nat) : Agrees k Block.decoder Block.decoder := by
  constructor
  intro n m v w b low same read
  exact (decodeWithin_agrees (n + 1) (Nat.le_refl (m + 1))).take (Nat.lt_succ_self m) same read

theorem Variable.decoder_agrees (k : Nat) : Agrees (k + 1) Variable.decoder Variable.decoder := by
  refine Agrees.bind (.record ?_ ?_ _) _
  · intro key draft
    constructor
    intro n m v w a low same
    split
    · exact ((Agrees.string k).bind _).take low same
    · exact ((Agrees.string k).bind _).take low same
  · intro key known key' known' differ n doc doc' a b c first second
    simp only [List.mem_cons, List.not_mem_nil, or_false] at known known'
    rcases known with rfl | rfl <;> rcases known' with rfl | rfl
    all_goals try exact absurd rfl differ
    all_goals exact exists_swapped first second (by rintro u v ⟨⟩ ⟨⟩; exact ⟨_, rfl, rfl⟩)

theorem blocksDecoder_agrees (k : Nat) : Agrees (k + 1) blocksDecoder blocksDecoder := by
  refine Agrees.record ?_ ?_ _
  · intro key draft
    exact (Block.decoder_agrees k).list.mono (Nat.le_succ k)
  · intro key known key' known' differ
    rw [List.mem_singleton.mp known, List.mem_singleton.mp known'] at differ
    exact absurd rfl differ

theorem Tree.decoder_agrees (k : Nat) : Agrees (k + 1) Tree.decoder Tree.decoder := by
  refine Agrees.record ?_ ?_ _
  · intro key draft
    constructor
    intro n m v w a low same
    split
    · exact (((blocksDecoder_agrees k).mono (Nat.le_succ k)).bind _).take low same
    · exact (((Variable.decoder_agrees k).list.mono (by omega)).bind _).take low same
  · intro key known key' known' differ n doc doc' a b c first second
    simp only [List.mem_cons, List.not_mem_nil, or_false] at known known'
    rcases known with rfl | rfl <;> rcases known' with rfl | rfl
    all_goals try exact absurd rfl differ
    all_goals exact exists_swapped first second (by rintro u v ⟨⟩ ⟨⟩; exact ⟨_, rfl, rfl⟩)

end Readers

/-- Both are the same, or both are refused as JSON, for whatever faults. -/
def SameOutcome (x y : Except LoadError Graph) : Prop :=
  x = y ∨ ∃ f f', x = .error (.json f) ∧ y = .error (.json f')

/-- A text without repeated keys loads as the value does that it is parsed to, unless that is
`null`. -/
theorem text_and_value_load_alike (s : String) (v : Value) (parsed : Decoder.any.text s = .ok v)
    (some : v ≠ .null) (single : Json.SingleText s) :
    SameOutcome (Graph.ofText s) (Graph.ofJson v) := by
  have agrees (k : Nat) : Agrees k Tree.decoder Tree.decoder :=
    (Tree.decoder_agrees k).mono (Nat.le_succ k)
  have same {t : Tree} : Tree.decoder.text s = .ok t ↔ Tree.decoder.value v = .ok t :=
    Json.text_eq_ok_iff agrees parsed single
  have value : Graph.ofJson v = Graph.ofDecoded (Tree.decoder.value v) := by
    cases v with
    | null => exact absurd rfl some
    | _ => rfl
  rw [Graph.ofText, value]
  cases ofText : Tree.decoder.text s with
  | ok t =>
    rw [same.mp ofText]
    exact .inl rfl
  | error f =>
    cases ofValue : Tree.decoder.value v with
    | ok t =>
      rw [same.mpr ofValue] at ofText
      cases ofText
    | error f' => exact .inr ⟨f, f', rfl, rfl⟩

/-- A block with its kind behind a member that is skipped, and a variable written as an array. -/
theorem text_and_value_load_alike_start :
    let start (members : List (String × Value)) : Value :=
      .object [("blocks", .array [.object members])]
    let named : Value := .array [.array [.string "n", .string "i"]]
    let written : Value := .object [("variables", named),
      ("blocks", start [("x", .number (.int 1)), ("type", .string "bp_start"), ("id", .string "s"),
        ("deletable", .bool true), ("next", .null)])]
    let v : Value := .object [("blocks", start [("deletable", .bool true), ("id", .string "s"),
      ("next", .null), ("type", .string "bp_start"), ("x", .number (.int 1))]),
      ("variables", named)]
    Decoder.any.text (written.render .pretty) = .ok v ∧ Json.SingleText (written.render .pretty) ∧
      (Graph.ofJson v).toOption.map (fun g => g.nodes.toList.map Node.id) = some ["s"] ∧
      SameOutcome (Graph.ofText (written.render .pretty)) (Graph.ofJson v) := by
  intro start named written v
  have fits : written.Fits := by
    simp [written, start, named, Value.Fits, Value.FitsMembers, Value.FitsItems, Json.Number.Fits,
      Word.limit64]
  have parsed : Decoder.any.text (written.render .pretty) = .ok v := by
    rw [Json.text_render Decoder.any fits]
    rfl
  have single : Json.SingleText (written.render .pretty) := by
    rw [Json.SingleText, Value.render, String.toList_ofList, Document.ofChars_write fits]
    simp [written, start, named, Doc.ofValue, Doc.ofMembers, Doc.ofItems, Doc.Single,
      Doc.SingleMembers, Doc.SingleItems]
  refine ⟨parsed, single, by decide +kernel, ?_⟩
  exact text_and_value_load_alike _ v parsed (by simp [v]) single

end BlockStage.Workspace
