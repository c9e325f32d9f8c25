import BlockStage.Proofs.Json.Values

/-! # Members in any order

A value may be written again with the members of its objects in another order. Readers that look
fields up find the same ones, and lists and dictionaries are read from their parts.
-/
namespace BlockStage.Json

namespace Value

mutual

/-- The second value is the first one up to the order of members. -/
def Reorders : Value → Value → Prop
  | .array items, w => ∃ items', w = .array items' ∧ ReordersItems items items'
  | .object members, w => ∃ inOrder members', w = .object members' ∧
    ReordersMembers members inOrder ∧ inOrder.Perm members'
  | v, w => w = v

def ReordersItems : List Value → List Value → Prop
  | [], ws => ws = []
  | v :: vs, ws => ∃ w ws', ws = w :: ws' ∧ v.Reorders w ∧ ReordersItems vs ws'

def ReordersMembers : List (String × Value) → List (String × Value) → Prop
  | [], ns => ns = []
  | (k, v) :: ms, ns => ∃ w ns', ns = (k, w) :: ns' ∧ v.Reorders w ∧ ReordersMembers ms ns'

end

mutual

theorem Reorders.refl : ∀ v : Value, v.Reorders v
  | .null | .bool _ | .number _ | .string _ => by simp [Reorders]
  | .array items => by
    rw [Reorders]
    exact ⟨items, rfl, ReordersItems.refl items⟩
  | .object members => by
    rw [Reorders]
    exact ⟨members, members, rfl, ReordersMembers.refl members, .refl members⟩

theorem ReordersItems.refl : ∀ vs : List Value, ReordersItems vs vs
  | [] => by simp [ReordersItems]
  | v :: vs => by
    rw [ReordersItems]
    exact ⟨v, vs, rfl, Reorders.refl v, ReordersItems.refl vs⟩

theorem ReordersMembers.refl : ∀ ms : List (String × Value), ReordersMembers ms ms
  | [] => by simp [ReordersMembers]
  | (k, v) :: ms => by
    rw [ReordersMembers]
    exact ⟨v, ms, rfl, Reorders.refl v, ReordersMembers.refl ms⟩

end

/-- A member with the same key and a value that is the same up to order. -/
def SameMember (m n : String × Value) : Prop := m.1 = n.1 ∧ m.2.Reorders n.2

theorem ReordersItems.forall₂ {vs ws : List Value} (h : ReordersItems vs ws) :
    List.Forall₂ Reorders vs ws := by
  induction vs generalizing ws with
  | nil =>
    rw [ReordersItems] at h
    rw [h]
    exact .nil
  | cons v vs ih =>
    rw [ReordersItems] at h
    obtain ⟨w, ws', rfl, first, rest⟩ := h
    exact .cons first (ih rest)

theorem ReordersMembers.forall₂ {ms ns : List (String × Value)} (h : ReordersMembers ms ns) :
    List.Forall₂ SameMember ms ns := by
  induction ms generalizing ns with
  | nil =>
    rw [ReordersMembers] at h
    rw [h]
    exact .nil
  | cons m ms ih =>
    rw [ReordersMembers] at h
    obtain ⟨w, ns', rfl, first, rest⟩ := h
    exact .cons ⟨rfl, first⟩ (ih rest)

theorem ReordersItems.of_forall₂ {vs ws : List Value} (h : List.Forall₂ Reorders vs ws) :
    ReordersItems vs ws := by
  induction h with
  | nil => simp [ReordersItems]
  | cons first _ ih =>
    rw [ReordersItems]
    exact ⟨_, _, rfl, first, ih⟩

theorem ReordersMembers.of_forall₂ {ms ns : List (String × Value)}
    (h : List.Forall₂ SameMember ms ns) : ReordersMembers ms ns := by
  induction h with
  | nil => simp [ReordersMembers]
  | @cons m n ms ns first _ ih =>
    obtain ⟨key, v⟩ := m
    obtain ⟨rfl, value⟩ : key = n.1 ∧ v.Reorders n.2 := first
    rw [ReordersMembers]
    exact ⟨n.2, ns, rfl, value, ih⟩

theorem Reorders.array {items : List Value} {w : Value} (h : (Value.array items).Reorders w) :
    ∃ items', w = .array items' ∧ List.Forall₂ Reorders items items' := by
  rw [Reorders] at h
  obtain ⟨items', rfl, same⟩ := h
  exact ⟨items', rfl, same.forall₂⟩

theorem Reorders.object {members : List (String × Value)} {w : Value}
    (h : (Value.object members).Reorders w) :
    ∃ inOrder members', w = .object members' ∧ List.Forall₂ SameMember members inOrder ∧
      inOrder.Perm members' := by
  rw [Reorders] at h
  obtain ⟨inOrder, members', rfl, same, perm⟩ := h
  exact ⟨inOrder, members', rfl, same.forall₂, perm⟩

theorem Reorders.pair {k k' : String} {v v' w : Value}
    (h : (Value.object [(k, v), (k', v')]).Reorders w) :
    ∃ x x', v.Reorders x ∧ v'.Reorders x' ∧
      (w = .object [(k, x), (k', x')] ∨ w = .object [(k', x'), (k, x)]) := by
  obtain ⟨inOrder, members, rfl, same, perm⟩ := h.object
  rcases same with _ | @⟨_, ⟨_, x⟩, _, _, ⟨rfl, first⟩, rest⟩
  rcases rest with _ | @⟨_, ⟨_, x'⟩, _, _, ⟨rfl, second⟩, rest⟩
  cases rest
  have orders := List.mem_permutations'.mpr perm.symm
  simp only [List.permutations', List.flatMap_cons, List.flatMap_nil, List.permutations'Aux,
    List.map_cons, List.map_nil, List.append_nil, List.mem_cons, List.not_mem_nil, or_false]
    at orders
  refine ⟨x, x', first, second, ?_⟩
  rcases orders with rfl | rfl
  · exact .inl rfl
  · exact .inr rfl

theorem Reorders.null {w : Value} (h : Value.null.Reorders w) : w = .null := by
  simpa [Reorders] using h

theorem Reorders.bool {b : Bool} {w : Value} (h : (Value.bool b).Reorders w) : w = .bool b := by
  simpa [Reorders] using h

theorem Reorders.number {n : Number} {w : Value} (h : (Value.number n).Reorders w) :
    w = .number n := by
  simpa [Reorders] using h

theorem Reorders.string {s : String} {w : Value} (h : (Value.string s).Reorders w) :
    w = .string s := by
  simpa [Reorders] using h

theorem Reorders.ne_null {v w : Value} (h : v.Reorders w) (some : v ≠ .null) : w ≠ .null := by
  cases v with
  | null => exact absurd rfl some
  | bool b => simp [h.bool]
  | number n => simp [h.number]
  | string s => simp [h.string]
  | array items =>
    obtain ⟨_, rfl, _⟩ := h.array
    simp
  | object members =>
    obtain ⟨_, _, rfl, _⟩ := h.object
    simp

theorem depth_le_of_member {m : String × Value} {ms : List (String × Value)} (h : m ∈ ms) :
    m.2.depth ≤ depthMembers ms := by
  induction ms with
  | nil => cases h
  | cons n ms ih =>
    rw [depthMembers]
    rcases List.mem_cons.mp h with rfl | h
    · exact Nat.le_max_left _ _
    · exact (ih h).trans (Nat.le_max_right _ _)

mutual

theorem Reorders.symm : ∀ {v w : Value}, v.Reorders w → w.Reorders v
  | .null, _, h => h.null ▸ .refl _
  | .bool _, _, h => h.bool ▸ .refl _
  | .number _, _, h => h.number ▸ .refl _
  | .string _, _, h => h.string ▸ .refl _
  | .array vs, w, h => by
    rw [Reorders] at h
    obtain ⟨ws, rfl, same⟩ := h
    rw [Reorders]
    exact ⟨vs, rfl, same.symm⟩
  | .object ms, w, h => by
    rw [Reorders] at h
    obtain ⟨inOrder, ns, rfl, same, perm⟩ := h
    obtain ⟨inOrder', same', perm'⟩ := List.perm_comp_forall₂ perm.symm same.symm.forall₂
    rw [Reorders]
    exact ⟨inOrder', ms, rfl, .of_forall₂ same', perm'⟩

theorem ReordersItems.symm : ∀ {vs ws : List Value}, ReordersItems vs ws → ReordersItems ws vs
  | [], ws, h => by
    rw [ReordersItems] at h
    rw [h, ReordersItems]
  | v :: vs, ws, h => by
    rw [ReordersItems] at h
    obtain ⟨w, ws', rfl, first, rest⟩ := h
    rw [ReordersItems]
    exact ⟨v, vs, rfl, first.symm, rest.symm⟩

theorem ReordersMembers.symm : ∀ {ms ns : List (String × Value)}, ReordersMembers ms ns →
    ReordersMembers ns ms
  | [], ns, h => by
    rw [ReordersMembers] at h
    rw [h, ReordersMembers]
  | (k, v) :: ms, ns, h => by
    rw [ReordersMembers] at h
    obtain ⟨w, ns', rfl, first, rest⟩ := h
    rw [ReordersMembers]
    exact ⟨v, ms, rfl, first.symm, rest.symm⟩

end

theorem depthMembers_perm {ms ns : List (String × Value)} (perm : ms.Perm ns) :
    depthMembers ms = depthMembers ns := by
  induction perm with
  | nil => rfl
  | cons m _ ih => rw [depthMembers, depthMembers, ih]
  | swap m n ms =>
    simp only [depthMembers]
    exact Nat.max_left_comm _ _ _
  | trans _ _ ih ih' => exact ih.trans ih'

mutual

theorem Reorders.depth_eq : ∀ {v w : Value}, v.Reorders w → v.depth = w.depth
  | .null, _, h => h.null ▸ rfl
  | .bool _, _, h => h.bool ▸ rfl
  | .number _, _, h => h.number ▸ rfl
  | .string _, _, h => h.string ▸ rfl
  | .array vs, w, h => by
    rw [Reorders] at h
    obtain ⟨ws, rfl, same⟩ := h
    rw [depth, depth, same.depth_eq]
  | .object ms, w, h => by
    rw [Reorders] at h
    obtain ⟨inOrder, ns, rfl, same, perm⟩ := h
    rw [depth, depth, same.depth_eq, depthMembers_perm perm]

theorem ReordersItems.depth_eq : ∀ {vs ws : List Value}, ReordersItems vs ws →
    depthItems vs = depthItems ws
  | [], ws, h => by
    rw [ReordersItems] at h
    rw [h]
  | v :: vs, ws, h => by
    rw [ReordersItems] at h
    obtain ⟨w, ws', rfl, first, rest⟩ := h
    rw [depthItems, depthItems, first.depth_eq, rest.depth_eq]

theorem ReordersMembers.depth_eq : ∀ {ms ns : List (String × Value)}, ReordersMembers ms ns →
    depthMembers ms = depthMembers ns
  | [], ns, h => by
    rw [ReordersMembers] at h
    rw [h]
  | (k, v) :: ms, ns, h => by
    rw [ReordersMembers] at h
    obtain ⟨w, ns', rfl, first, rest⟩ := h
    rw [depthMembers, depthMembers, first.depth_eq, rest.depth_eq]

end

end Value

/-! ## Reading from parts -/

mutual

theorem any_accepts : ∀ (v : Value) (levels : Nat), v.depth ≤ levels →
    ∃ w, Decoder.any levels (.ofValue v) = .ok w
  | .null, _, _ | .bool _, _, _ | .number _, _, _ | .string _, _, _ => by
    rw [Doc.ofValue, Decoder.any]
    exact ⟨_, rfl⟩
  | .array items, levels, enough => by
    rw [Value.depth] at enough
    obtain ⟨levels, rfl⟩ : ∃ n, levels = n + 1 := ⟨levels - 1, by omega⟩
    obtain ⟨ws, read⟩ := any_acceptsItems items levels (Nat.le_of_succ_le_succ enough)
    rw [Doc.ofValue, any_array, read]
    exact ⟨_, rfl⟩
  | .object members, levels, enough => by
    rw [Value.depth] at enough
    obtain ⟨levels, rfl⟩ : ∃ n, levels = n + 1 := ⟨levels - 1, by omega⟩
    obtain ⟨es, read⟩ := any_acceptsMembers members levels (Nat.le_of_succ_le_succ enough) []
    rw [Doc.ofValue, any_object, read]
    exact ⟨_, rfl⟩

theorem any_acceptsItems : ∀ (vs : List Value) (levels : Nat), Value.depthItems vs ≤ levels →
    ∃ ws, (Doc.ofItems vs).mapM (Decoder.any levels) = .ok ws
  | [], _, _ => ⟨[], rfl⟩
  | v :: vs, levels, enough => by
    rw [Value.depthItems] at enough
    obtain ⟨w, first⟩ := any_accepts v levels (by omega)
    obtain ⟨ws, rest⟩ := any_acceptsItems vs levels (by omega)
    rw [Doc.ofItems, List.mapM_cons, first, rest]
    exact ⟨_, rfl⟩

theorem any_acceptsMembers : ∀ (ms : List (String × Value)) (levels : Nat),
    Value.depthMembers ms ≤ levels → ∀ es,
    ∃ es', (Doc.ofMembers ms).foldlM (anyMember levels) es = .ok es'
  | [], _, _, es => ⟨es, rfl⟩
  | (k, v) :: ms, levels, enough, es => by
    rw [Value.depthMembers] at enough
    obtain ⟨w, first⟩ := any_accepts v levels (by omega)
    obtain ⟨es', rest⟩ := any_acceptsMembers ms levels (by omega) (Entries.insert k w es)
    have step : anyMember levels es (.ok k, .ofValue v) = .ok (Entries.insert k w es) := by
      simp only [anyMember, first]
      rfl
    rw [Doc.ofMembers, List.foldlM_cons, step]
    exact ⟨es', rest⟩

end

section Parts

variable {α : Type} {d : Decoder α} {levels : Nat}

theorem mapM_ofItems {vs : List Value} {as : List α}
    (read : List.Forall₂ (fun v a => d levels (.ofValue v) = .ok a) vs as) :
    (Doc.ofItems vs).mapM (d levels) = .ok as := by
  induction read with
  | nil => rfl
  | cons first _ ih =>
    rw [Doc.ofItems, List.mapM_cons, first, ih]
    rfl

theorem list_ofValue {vs : List Value} {as : List α}
    (read : List.Forall₂ (fun v a => d levels (.ofValue v) = .ok a) vs as) :
    Decoder.list d (levels + 1) (.ofValue (.array vs)) = .ok as := by
  rw [Doc.ofValue, Decoder.list, mapM_ofItems read]
  rfl

theorem entries_ofValue {ms : List (String × Value)} {es : List (String × α)}
    (read : List.Forall₂ (fun m e => m.1 = e.1 ∧ d levels (.ofValue m.2) = .ok e.2) ms es) :
    Decoder.entries d (levels + 1) (.ofValue (.object ms)) = .ok (Entries.ofList es) := by
  have general (acc : Entries α) :
      (Doc.ofMembers ms).foldlM (fun es m => do
        let key ← m.1
        let a ← d levels m.2
        return Entries.insert key a es) acc =
      .ok (es.foldl (fun acc e => Entries.insert e.1 e.2 acc) acc) := by
    induction read generalizing acc with
    | nil => rfl
    | @cons m e ms es first _ ih =>
      obtain ⟨key, value⟩ := first
      rw [Doc.ofMembers, List.foldlM_cons]
      simp only [bind, Except.bind, value]
      rw [key]
      exact ih _
  rw [Doc.ofValue, Decoder.entries, general]
  rfl

/-- A record of two fields is read from its members in either order. -/
theorem record_ofValue {δ : Type} {k k' : String} (differ : k ≠ k')
    {put : String → (levels : Nat) → Doc → δ → Except Fault δ} {blank a a' draft : δ}
    {x x' w : Value} (first : put k levels (.ofValue x) blank = .ok a)
    (second : put k' levels (.ofValue x') a = .ok draft)
    (first' : put k' levels (.ofValue x') blank = .ok a')
    (second' : put k levels (.ofValue x) a' = .ok draft)
    (order : w = .object [(k, x), (k', x')] ∨ w = .object [(k', x'), (k, x)]) :
    Decoder.record [k, k'] put blank (levels + 1) (.ofValue w) = .ok draft := by
  rcases order with rfl | rfl
  · simp [Doc.ofValue, Doc.ofMembers, Decoder.record, Decoder.close, bind, Except.bind, pure,
      Except.pure, first, second, differ.symm]
  · simp [Doc.ofValue, Doc.ofMembers, Decoder.record, Decoder.close, bind, Except.bind, pure,
      Except.pure, first', second', differ]

end Parts

end BlockStage.Json
