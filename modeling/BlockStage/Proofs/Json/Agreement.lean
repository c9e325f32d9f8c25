import Mathlib.Data.List.Forall2
import BlockStage.Proofs.Json.Reordering

/-! # Readers that do not look at the order

Where no object repeats a key, a reader takes the same from a value and from the same value with its
members in another order: it finds the fields of a record wherever they stand, and it orders entries
itself. So it takes the same from a document and from what the document is read as.
-/
namespace BlockStage.Json

namespace Doc

mutual

/-- No object inside repeats a key. -/
def Single : Doc → Prop
  | .array items _ => SingleItems items
  | .object members _ => (members.map Prod.fst).Nodup ∧ SingleMembers members
  | _ => True

def SingleItems : List Doc → Prop
  | [] => True
  | d :: ds => d.Single ∧ SingleItems ds

def SingleMembers : List (Except Fault String × Doc) → Prop
  | [] => True
  | (_, d) :: ds => d.Single ∧ SingleMembers ds

end

theorem ofMembers_keys (ms : List (String × Value)) :
    (ofMembers ms).map Prod.fst = (ms.map Prod.fst).map .ok := by
  induction ms with
  | nil => rfl
  | cons m ms ih => rw [ofMembers, List.map_cons, ih]; rfl

theorem ofItems_length (vs : List Value) : (ofItems vs).length = vs.length := by
  induction vs with
  | nil => rfl
  | cons v vs ih => rw [ofItems, List.length_cons, ih, List.length_cons]

theorem keys_nodup {ms : List (String × Value)} :
    ((ofMembers ms).map Prod.fst).Nodup ↔ (ms.map Prod.fst).Nodup := by
  rw [ofMembers_keys]
  exact List.nodup_map_iff fun _ _ same => Except.ok.inj same

end Doc

/-- The second value is the first one up to the order of members, and no object repeats a key. For
both of them so many levels are enough. -/
structure Value.Recasts (levels : Nat) (v w : Value) : Prop where
  reorders : v.Reorders w
  single : (Doc.ofValue v).Single
  depth : v.depth ≤ levels

/-- A member with the same key and such a value. -/
def RecastMember (levels : Nat) (m m' : String × Value) : Prop :=
  m.1 = m'.1 ∧ m.2.Recasts levels m'.2

namespace Value.Recasts

variable {levels n : Nat} {v w : Value} {vs ws : List Value} {ms ns : List (String × Value)}

theorem items (same : List.Forall₂ Reorders vs ws) (single : Doc.SingleItems (Doc.ofItems vs))
    (depth : depthItems vs ≤ n) : List.Forall₂ (Recasts n) vs ws := by
  induction same with
  | nil => exact .nil
  | cons first _ ih =>
    rw [Doc.ofItems] at single
    have depth := Nat.max_le.mp depth
    exact .cons ⟨first, single.1, depth.1⟩ (ih single.2 depth.2)

theorem members (same : List.Forall₂ SameMember ms ns)
    (single : Doc.SingleMembers (Doc.ofMembers ms)) (depth : depthMembers ms ≤ n) :
    List.Forall₂ (RecastMember n) ms ns := by
  induction same with
  | nil => exact .nil
  | @cons m n ms ns first _ ih =>
    rw [Doc.ofMembers] at single
    have depth := Nat.max_le.mp depth
    exact .cons ⟨first.1, first.2, single.1, depth.1⟩ (ih single.2 depth.2)

theorem array (h : (Value.array vs).Recasts levels w) : ∃ n ws, levels = n + 1 ∧ w = .array ws ∧
    List.Forall₂ (Recasts n) vs ws := by
  obtain ⟨reorders, single, depth⟩ := h
  obtain ⟨ws, rfl, same⟩ := reorders.array
  rw [Value.depth] at depth
  rw [Doc.ofValue] at single
  exact ⟨levels - 1, ws, by omega, rfl, items same single (by omega)⟩

theorem object (h : (Value.object ms).Recasts levels w) : ∃ n inOrder ms', levels = n + 1 ∧
    w = .object ms' ∧ List.Forall₂ (RecastMember n) ms inOrder ∧ inOrder.Perm ms' ∧
    (ms.map Prod.fst).Nodup := by
  obtain ⟨reorders, single, depth⟩ := h
  obtain ⟨inOrder, ms', rfl, same, perm⟩ := reorders.object
  rw [Value.depth] at depth
  rw [Doc.ofValue] at single
  exact ⟨levels - 1, inOrder, ms', by omega, rfl, members same single.2 (by omega), perm,
    Doc.keys_nodup.mp single.1⟩

end Value.Recasts

theorem keys_eq {α β : Type} {R : String × α → String × β → Prop} (same : ∀ a b, R a b → a.1 = b.1)
    {ms : List (String × α)} {ns : List (String × β)} (related : List.Forall₂ R ms ns) :
    ms.map Prod.fst = ns.map Prod.fst := by
  rw [← List.forall₂_eq_eq_eq, List.forall₂_map_left_iff, List.forall₂_map_right_iff]
  exact related.imp same

/-! ## Reading into parts -/

section Parts

variable {α : Type} {d : Decoder α} {n : Nat}

theorem forall₂_of_mapM {vs : List Value} {as : List α}
    (read : (Doc.ofItems vs).mapM (d n) = .ok as) :
    List.Forall₂ (fun v a => d n (.ofValue v) = .ok a) vs as := by
  induction vs generalizing as with
  | nil =>
    obtain rfl : [] = as := Except.ok.inj read
    exact .nil
  | cons v vs ih =>
    rw [Doc.ofItems, List.mapM_cons] at read
    obtain ⟨a, first, read⟩ := bind_ok read
    obtain ⟨rest, others, read⟩ := bind_ok read
    obtain rfl : a :: rest = as := Except.ok.inj read
    exact .cons first (ih others)

theorem exists_of_entries {ms : List (String × Value)} {es : Entries α}
    (read : Decoder.entries d (n + 1) (.ofValue (.object ms)) = .ok es) :
    ∃ parts : List (String × α),
      List.Forall₂ (fun m e => m.1 = e.1 ∧ d n (.ofValue m.2) = .ok e.2) ms parts ∧
      es = Entries.ofList parts := by
  have general : ∀ acc es : Entries α, (Doc.ofMembers ms).foldlM (fun es m => do
      let key ← m.1
      let a ← d n m.2
      return Entries.insert key a es) acc = .ok es →
      ∃ parts : List (String × α),
        List.Forall₂ (fun m e => m.1 = e.1 ∧ d n (.ofValue m.2) = .ok e.2) ms parts ∧
        es = parts.foldl (fun acc e => Entries.insert e.1 e.2 acc) acc := by
    clear read es
    induction ms with
    | nil =>
      intro acc es read
      exact ⟨[], .nil, (Except.ok.inj read).symm⟩
    | cons m ms ih =>
      intro acc es read
      rw [Doc.ofMembers, List.foldlM_cons] at read
      obtain ⟨acc', first, read⟩ := bind_ok read
      obtain ⟨_, ⟨⟩, first⟩ := bind_ok first
      obtain ⟨a, value, first⟩ := bind_ok first
      obtain rfl : Entries.insert m.1 a acc = acc' := Except.ok.inj first
      obtain ⟨parts, rest, rfl⟩ := ih _ es read
      exact ⟨(m.1, a) :: parts, .cons ⟨rfl, value⟩ rest, rfl⟩
  rw [Doc.ofValue, Decoder.entries] at read
  obtain ⟨es', members, read⟩ := bind_ok read
  obtain ⟨_, _, read⟩ := bind_ok read
  obtain rfl : es' = es := Except.ok.inj read
  exact general [] es' members

mutual

theorem skipFault_ofValue : ∀ v : Value, (Doc.ofValue v).skipFault = none
  | .null | .bool _ | .number _ | .string _ => by rw [Doc.ofValue, Doc.skipFault] <;> simp
  | .array items => by rw [Doc.ofValue, Doc.skipFault, skipItems_ofItems items]; rfl
  | .object members => by rw [Doc.ofValue, Doc.skipFault, skipMembers_ofMembers members]; rfl

theorem skipItems_ofItems : ∀ vs : List Value, Doc.skipItems (Doc.ofItems vs) = none
  | [] => rfl
  | v :: vs => by rw [Doc.ofItems, Doc.skipItems, skipFault_ofValue v, skipItems_ofItems vs]; rfl

theorem skipMembers_ofMembers : ∀ ms : List (String × Value),
    Doc.skipMembers (Doc.ofMembers ms) = none
  | [] => rfl
  | (k, v) :: ms => by
    rw [Doc.ofMembers, Doc.skipMembers, skipFault_ofValue v, skipMembers_ofMembers ms]
    rfl

end

end Parts

/-! ## Records -/

section Records

variable {δ : Type} {fields : List String}
  {put : String → (levels : Nat) → Doc → δ → Except Fault δ}
  {blank : δ} {n : Nat}

/-- One member of a record is read, or skipped. -/
def recordMember (fields : List String) (put : String → (levels : Nat) → Doc → δ → Except Fault δ)
    (n : Nat) (s : δ × List String) (m : Except Fault String × Doc) :
    Except Fault (δ × List String) := do
  let key ← m.1
  if fields.contains key then
    if s.2.contains key then .error .unfit
    else return (← put key n m.2 s.1, key :: s.2)
  else
    Decoder.close m.2.skipFault
    return (s.1, s.2)

theorem record_members (members : List (Except Fault String × Doc)) (gap : Option Fault) :
    Decoder.record fields put blank (n + 1) (.object members gap) = (do
      let s ← members.foldlM (recordMember fields put n) (blank, [])
      Decoder.close gap
      return s.1) := rfl

/-- The members of an object are put into the draft in their order. -/
def putMembers (put : String → (levels : Nat) → Doc → δ → Except Fault δ) (n : Nat) (draft : δ)
    (ms : List (String × Value)) : Except Fault δ :=
  ms.foldlM (fun draft m => put m.1 n (.ofValue m.2) draft) draft

theorem record_object {ms : List (String × Value)} (distinct : (ms.map Prod.fst).Nodup) :
    Decoder.record fields put blank (n + 1) (.ofValue (.object ms)) =
      putMembers put n blank (ms.filter fun m => fields.contains m.1) := by
  have general : ∀ (draft : δ) (seen : List String), (∀ key ∈ seen, key ∉ ms.map Prod.fst) →
      Prod.fst <$> (Doc.ofMembers ms).foldlM (recordMember fields put n) (draft, seen) =
      putMembers put n draft (ms.filter fun m => fields.contains m.1) := by
    induction ms with
    | nil =>
      intro draft seen _
      rfl
    | cons m ms ih =>
      intro draft seen fresh
      obtain ⟨first, distinct⟩ := List.nodup_cons.mp distinct
      have unseen : m.1 ∉ seen := fun mem => fresh _ mem List.mem_cons_self
      have later : ∀ key ∈ seen, key ∉ ms.map Prod.fst :=
        fun key mem there => fresh key mem (List.mem_cons_of_mem _ there)
      rw [Doc.ofMembers, List.foldlM_cons]
      by_cases known : m.1 ∈ fields
      · have again : ∀ key ∈ m.1 :: seen, key ∉ ms.map Prod.fst := by
          intro key mem
          rcases List.mem_cons.mp mem with rfl | mem
          · exact first
          · exact later key mem
        have step : recordMember fields put n (draft, seen) (.ok m.1, .ofValue m.2) =
            (fun draft => (draft, m.1 :: seen)) <$> put m.1 n (.ofValue m.2) draft := by
          simp [recordMember, known, unseen, bind, Except.bind, Functor.map, Except.map, pure,
            Except.pure]
        rw [List.filter_cons_of_pos (by simpa using known), step, putMembers, List.foldlM_cons]
        cases put m.1 n (.ofValue m.2) draft with
        | error f => rfl
        | ok draft' => exact ih distinct draft' (m.1 :: seen) again
      · have step : recordMember fields put n (draft, seen) (.ok m.1, .ofValue m.2) =
            .ok (draft, seen) := by
          simp [recordMember, known, skipFault_ofValue, Decoder.close, bind, Except.bind, pure,
            Except.pure]
        rw [List.filter_cons_of_neg (by simpa using known), step]
        exact ih distinct draft seen later
  rw [← general blank [] (by simp), Doc.ofValue, record_members]
  cases (Doc.ofMembers ms).foldlM (recordMember fields put n) (blank, []) <;> rfl

/-- Different fields may be put into a draft in either order. -/
def Independent (fields : List String)
    (put : String → (levels : Nat) → Doc → δ → Except Fault δ) : Prop :=
  ∀ key ∈ fields, ∀ key' ∈ fields, key ≠ key' → ∀ {n : Nat} {doc doc' : Doc} {a b c : δ},
    put key n doc a = .ok b → put key' n doc' b = .ok c →
      ∃ b', put key' n doc' a = .ok b' ∧ put key n doc b' = .ok c

/-- Of two readings, each with what is done with it, either may come first. -/
theorem exists_swapped {α β : Type} {x : Except Fault α} {y : Except Fault β}
    {f : α → Except Fault δ} {g g' : β → Except Fault δ} {f' : δ → α → Except Fault δ} {b c : δ}
    (first : x >>= f = .ok b) (second : y >>= g = .ok c)
    (commute : ∀ u v, f u = .ok b → g v = .ok c → ∃ b', g' v = .ok b' ∧ f' b' u = .ok c) :
    ∃ b', y >>= g' = .ok b' ∧ x >>= f' b' = .ok c := by
  obtain ⟨u, hu, first⟩ := bind_ok first
  obtain ⟨v, hv, second⟩ := bind_ok second
  obtain ⟨b', here, there⟩ := commute u v first second
  exact ⟨b', then_ok hv here, then_ok hu there⟩

theorem Independent.putMembers_perm (free : Independent fields put)
    {ms ns : List (String × Value)} (perm : ms.Perm ns) (known : ∀ m ∈ ms, m.1 ∈ fields)
    (distinct : (ms.map Prod.fst).Nodup) {a b : δ} (read : putMembers put n a ms = .ok b) :
    putMembers put n a ns = .ok b := by
  induction perm generalizing a with
  | nil => exact read
  | cons m _ ih =>
    obtain ⟨c, first, rest⟩ := bind_ok read
    refine then_ok first (ih ?_ (List.nodup_cons.mp distinct).2 rest)
    exact fun m' hm => known m' (List.mem_cons_of_mem m hm)
  | swap m m' ms =>
    obtain ⟨c, first, read⟩ := bind_ok read
    obtain ⟨d, second, rest⟩ := bind_ok read
    have differ : m'.1 ≠ m.1 := by
      intro same
      exact (List.nodup_cons.mp distinct).1 (same ▸ List.mem_cons_self)
    obtain ⟨c', second, first⟩ := free m'.1 (known m' List.mem_cons_self) m.1
      (known m (List.mem_cons_of_mem _ List.mem_cons_self)) differ first second
    exact then_ok second (then_ok first rest)
  | trans perm _ ih ih' =>
    refine ih' ?_ ((perm.map Prod.fst).nodup_iff.mp distinct) (ih known distinct read)
    exact fun m hm => known m (perm.symm.subset hm)

end Records

/-! ## Agreement -/

/-- What the first reader takes from a value, the second one takes from the value with its members
in any other order, with less than `k` levels. -/
structure Agrees {α : Type} (k : Nat) (d d' : Decoder α) : Prop where
  take : ∀ {n m : Nat} {v w : Value} {a : α}, m < k → v.Recasts m w → d n (.ofValue v) = .ok a →
    d' m (.ofValue w) = .ok a

namespace Agrees

variable {α β : Type} {k : Nat} {d d' : Decoder α}

theorem any_array_list (n : Nat) (vs : List Value) :
    Decoder.any n (.ofValue (.array vs)) = (do
      let as ← Decoder.list Decoder.any n (.ofValue (.array vs))
      return .array as) := by
  cases n with
  | zero => rfl
  | succ n =>
    rw [Doc.ofValue, any_array, Decoder.list]
    cases (Doc.ofItems vs).mapM (Decoder.any n) <;> rfl

theorem any_object_entries (n : Nat) (ms : List (String × Value)) :
    Decoder.any n (.ofValue (.object ms)) = (do
      let es ← Decoder.entries Decoder.any n (.ofValue (.object ms))
      return .object es) := by
  cases n with
  | zero => rfl
  | succ n =>
    rw [Doc.ofValue, any_object, Decoder.entries]
    change _ = ((Doc.ofMembers ms).foldlM (anyMember n) [] >>= _) >>= _
    cases (Doc.ofMembers ms).foldlM (anyMember n) [] <;> rfl

theorem optional_ofValue {n : Nat} {v : Value} (some : v ≠ .null) :
    Decoder.optional d n (.ofValue v) = Option.some <$> d n (.ofValue v) := by
  cases v with
  | null => exact absurd rfl some
  | _ => rfl

theorem forall₂_exchange {γ : Type} {R : α → β → Prop} {P : α → γ → Prop} {Q : β → γ → Prop}
    (each : ∀ a b c, R a b → P a c → Q b c) {as : List α} {bs : List β} {cs : List γ}
    (related : List.Forall₂ R as bs) (taken : List.Forall₂ P as cs) : List.Forall₂ Q bs cs := by
  induction related generalizing cs with
  | nil =>
    cases taken
    exact .nil
  | cons first _ ih =>
    cases taken with
    | cons first' rest => exact .cons (each _ _ _ first first') (ih rest)

theorem none (d d' : Decoder α) : Agrees 0 d d' :=
  ⟨fun low => absurd low (Nat.not_lt_zero _)⟩

theorem mono {l : Nat} (h : Agrees k d d') (le : l ≤ k) : Agrees l d d' :=
  ⟨fun low same read => h.take (Nat.lt_of_lt_of_le low le) same read⟩

theorem bind (h : Agrees k d d') (f : α → Except Fault β) :
    Agrees k (fun n doc => d n doc >>= f) (fun n doc => d' n doc >>= f) := by
  constructor
  intro n m v w b low same read
  obtain ⟨a, first, rest⟩ := bind_ok read
  exact then_ok (h.take low same first) rest

theorem string (k : Nat) : Agrees k Decoder.string Decoder.string := by
  constructor
  intro n m v w a _ same read
  cases v with
  | string s =>
    rw [same.reorders.string]
    exact read
  | _ => cases read

theorem float (k : Nat) : Agrees k Decoder.float Decoder.float := by
  constructor
  intro n m v w a _ same read
  cases v with
  | number x =>
    rw [same.reorders.number]
    exact read
  | _ => cases read

theorem optional (h : Agrees k d d') : Agrees k (Decoder.optional d) (Decoder.optional d') := by
  constructor
  intro n m v w o low same read
  by_cases null : v = .null
  · subst null
    rw [same.reorders.null]
    exact read
  · rw [optional_ofValue null] at read
    rw [optional_ofValue (same.reorders.ne_null null)]
    cases value : d n (.ofValue v) with
    | error f =>
      rw [value] at read
      cases read
    | ok a =>
      rw [value] at read
      rw [h.take low same value]
      exact read

theorem list (h : Agrees k d d') : Agrees (k + 1) (Decoder.list d) (Decoder.list d') := by
  constructor
  intro n m v w as low same read
  cases v with
  | array vs =>
    obtain ⟨m, ws, rfl, rfl, items⟩ := same.array
    cases n with
    | zero => cases read
    | succ n =>
      rw [Doc.ofValue, Decoder.list] at read
      obtain ⟨as', taken, rest⟩ := bind_ok read
      obtain rfl : as' = as := Except.ok.inj rest
      have low : m < k := Nat.lt_of_succ_lt_succ low
      apply list_ofValue
      refine forall₂_exchange ?_ items (forall₂_of_mapM taken)
      exact fun _ _ _ same read => h.take low same read
  | _ => cases n <;> cases read

theorem entries (h : Agrees k d d') : Agrees (k + 1) (Decoder.entries d) (Decoder.entries d') := by
  constructor
  intro n m v w es low same read
  cases v with
  | object ms =>
    obtain ⟨m, inOrder, ms', rfl, rfl, members, perm, distinct⟩ := same.object
    cases n with
    | zero => cases read
    | succ n =>
      obtain ⟨parts, taken, rfl⟩ := exists_of_entries read
      have low : m < k := Nat.lt_of_succ_lt_succ low
      have read' : List.Forall₂ (fun m' e => m'.1 = e.1 ∧ d' m (.ofValue m'.2) = .ok e.2)
          inOrder parts := by
        refine forall₂_exchange (fun _ _ _ same read => ?_) members taken
        exact ⟨same.1.symm.trans read.1, h.take low same.2 read.2⟩
      obtain ⟨parts', read', perm'⟩ := List.perm_comp_forall₂ perm.symm read'
      have keys : (parts'.map Prod.fst).Nodup := by
        refine (perm'.map Prod.fst).nodup_iff.mpr ?_
        rw [← keys_eq (fun _ _ same => same.1) taken]
        exact distinct
      rw [← Entries.ofList_perm perm' keys]
      exact entries_ofValue read'
  | _ => cases n <;> cases read

theorem any (k : Nat) : Agrees k Decoder.any Decoder.any := by
  induction k with
  | zero => exact none _ _
  | succ k ih =>
    constructor
    intro n m v w a low same read
    cases v with
    | null =>
      rw [same.reorders.null]
      rw [Doc.ofValue, Decoder.any] at read ⊢
      exact read
    | bool b =>
      rw [same.reorders.bool]
      rw [Doc.ofValue, Decoder.any] at read ⊢
      exact read
    | number x =>
      rw [same.reorders.number]
      rw [Doc.ofValue, Decoder.any] at read ⊢
      exact read
    | string s =>
      rw [same.reorders.string]
      rw [Doc.ofValue, Decoder.any] at read ⊢
      exact read
    | array vs =>
      obtain ⟨ws, rfl, _⟩ := same.reorders.array
      rw [any_array_list] at read ⊢
      obtain ⟨as, taken, rest⟩ := bind_ok read
      exact then_ok (ih.list.take low same taken) rest
    | object ms =>
      obtain ⟨_, ms', rfl, _⟩ := same.reorders.object
      rw [any_object_entries] at read ⊢
      obtain ⟨es, taken, rest⟩ := bind_ok read
      exact then_ok (ih.entries.take low same taken) rest

section Records

variable {δ : Type} {fields : List String}
  {put put' : String → (levels : Nat) → Doc → δ → Except Fault δ} {n m : Nat}
  (each : ∀ key draft,
    Agrees k (fun n doc => put key n doc draft) fun n doc => put' key n doc draft)
include each

theorem putMembers (low : m < k) {ms ns : List (String × Value)}
    (same : List.Forall₂ (RecastMember m) ms ns) {a b : δ} (read : putMembers put n a ms = .ok b) :
    Json.putMembers put' m a ns = .ok b := by
  induction same generalizing a with
  | nil => exact read
  | @cons first first' _ _ related _ ih =>
    obtain ⟨c, value, rest⟩ := bind_ok read
    have value' : put' first.1 m (.ofValue first'.2) a = .ok c :=
      (each first.1 a).take low related.2 value
    rw [related.1] at value'
    exact then_ok value' (ih rest)

theorem putItems (low : m < k) {vs ws : List Value} (same : List.Forall₂ (Value.Recasts m) vs ws)
    {a b : δ} (read : (fields.zip (Doc.ofItems vs)).foldlM
      (fun draft field => put field.1 n field.2 draft) a = .ok b) :
    (fields.zip (Doc.ofItems ws)).foldlM (fun draft field => put' field.1 m field.2 draft) a =
      .ok b := by
  induction same generalizing fields a with
  | nil => cases fields <;> exact read
  | cons related _ ih =>
    cases fields with
    | nil => exact read
    | cons key fields =>
      obtain ⟨c, value, rest⟩ := bind_ok read
      exact then_ok ((each key a).take low related value) (ih rest)

theorem record (free : Independent fields put') (blank : δ) :
    Agrees (k + 1) (Decoder.record fields put blank) (Decoder.record fields put' blank) := by
  constructor
  intro n m v w draft low same read
  cases v with
  | object ms =>
    obtain ⟨m, inOrder, ms', rfl, rfl, members, perm, distinct⟩ := same.object
    have keys : (inOrder.map Prod.fst).Nodup := by
      rw [← keys_eq (fun _ _ same => same.1) members]
      exact distinct
    cases n with
    | zero => cases read
    | succ n =>
      rw [record_object distinct] at read
      rw [record_object ((perm.map Prod.fst).nodup_iff.mp keys)]
      have low : m < k := Nat.lt_of_succ_lt_succ low
      have known : List.Forall₂ (RecastMember m) (ms.filter fun m => fields.contains m.1)
          (inOrder.filter fun m => fields.contains m.1) :=
        List.rel_filter (fun _ _ same => by simp only [same.1]) members
      refine free.putMembers_perm (perm.filter _) ?_ ?_ (putMembers each low known read)
      · intro m hm
        simpa using (List.mem_filter.mp hm).2
      · exact keys.sublist (List.filter_sublist.map Prod.fst)
  | array vs =>
    obtain ⟨m, ws, rfl, rfl, items⟩ := same.array
    cases n with
    | zero => cases read
    | succ n =>
      have low : m < k := Nat.lt_of_succ_lt_succ low
      rw [Doc.ofValue, Decoder.record] at read ⊢
      obtain ⟨draft', taken, rest⟩ := bind_ok read
      have length : (Doc.ofItems ws).length = (Doc.ofItems vs).length := by
        rw [Doc.ofItems_length, Doc.ofItems_length, items.length_eq]
      rw [length]
      exact then_ok (putItems each low items taken) rest
  | _ => cases n <;> cases read

end Records

end Agrees

/-! ## Documents -/

namespace Value

mutual

theorem Ordered.single : ∀ {v : Value}, v.Ordered → (Doc.ofValue v).Single
  | .null, _ | .bool _, _ | .number _, _ | .string _, _ => by
    rw [Doc.ofValue]
    trivial
  | .array items, ordered => by
    rw [Doc.ofValue, Doc.Single]
    exact OrderedItems.single ordered
  | .object members, ordered => by
    rw [Doc.ofValue, Doc.Single]
    exact ⟨Doc.keys_nodup.mpr ordered.1.distinct, OrderedMembers.single ordered.2⟩

theorem OrderedItems.single : ∀ {vs : List Value}, OrderedItems vs →
    Doc.SingleItems (Doc.ofItems vs)
  | [], _ => trivial
  | _ :: _, ordered => ⟨ordered.1.single, OrderedItems.single ordered.2⟩

theorem OrderedMembers.single : ∀ {ms : List (String × Value)}, OrderedMembers ms →
    Doc.SingleMembers (Doc.ofMembers ms)
  | [], _ => trivial
  | _ :: _, ordered => ⟨ordered.1.single, OrderedMembers.single ordered.2⟩

end

theorem Recasts.depthItems_le {n : Nat} {vs ws : List Value}
    (same : List.Forall₂ (Recasts n) vs ws) : depthItems vs ≤ n := by
  induction same with
  | nil => exact Nat.zero_le n
  | cons first _ ih => exact Nat.max_le.mpr ⟨first.depth, ih⟩

theorem Recasts.depthMembers_le {n : Nat} {ms ns : List (String × Value)}
    (same : List.Forall₂ (RecastMember n) ms ns) : depthMembers ms ≤ n := by
  induction same with
  | nil => exact Nat.zero_le n
  | cons first _ ih => exact Nat.max_le.mpr ⟨first.2.depth, ih⟩

end Value

section Documents

variable {n : Nat} (each : ∀ {d : Doc} {v : Value}, Decoder.any n d = .ok v → d.Single →
  ∃ u, d = .ofValue u ∧ u.Recasts n v)
include each

theorem exists_items {ds : List Doc} {vs : List Value} (read : ds.mapM (Decoder.any n) = .ok vs)
    (single : Doc.SingleItems ds) :
    ∃ us, ds = Doc.ofItems us ∧ List.Forall₂ (Value.Recasts n) us vs := by
  induction ds generalizing vs with
  | nil =>
    obtain rfl : [] = vs := Except.ok.inj read
    exact ⟨[], rfl, .nil⟩
  | cons d ds ih =>
    rw [List.mapM_cons] at read
    obtain ⟨v, first, read⟩ := bind_ok read
    obtain ⟨vs', rest, read⟩ := bind_ok read
    obtain rfl : v :: vs' = vs := Except.ok.inj read
    obtain ⟨u, rfl, same⟩ := each first single.1
    obtain ⟨us, rfl, others⟩ := ih rest single.2
    exact ⟨u :: us, rfl, .cons same others⟩

theorem exists_members {ds : List (Except Fault String × Doc)} {acc es : Entries Value}
    (read : ds.foldlM (anyMember n) acc = .ok es) (single : Doc.SingleMembers ds) :
    ∃ (ms : List (String × Value)) (parts : List (String × Value)), ds = Doc.ofMembers ms ∧
      List.Forall₂ (RecastMember n) ms parts ∧
      es = parts.foldl (fun acc e => Entries.insert e.1 e.2 acc) acc := by
  induction ds generalizing acc with
  | nil =>
    obtain rfl : acc = es := Except.ok.inj read
    exact ⟨[], [], rfl, .nil, rfl⟩
  | cons m ds ih =>
    obtain ⟨key, d⟩ := m
    rw [List.foldlM_cons] at read
    obtain ⟨acc', first, rest⟩ := bind_ok read
    obtain ⟨k, rfl, first⟩ := bind_ok first
    obtain ⟨v, value, first⟩ := bind_ok first
    obtain rfl : Entries.insert k v acc = acc' := Except.ok.inj first
    obtain ⟨u, rfl, same⟩ := each value single.1
    obtain ⟨ms, parts, rfl, others, rfl⟩ := ih rest single.2
    exact ⟨(k, u) :: ms, (k, v) :: parts, rfl, .cons ⟨rfl, same⟩ others, rfl⟩

end Documents

theorem close_ok {gap : Option Fault} {u : Unit} (closed : Decoder.close gap = .ok u) :
    gap = none := by
  cases gap with
  | none => rfl
  | some f => cases closed

theorem exists_recasts : ∀ {n : Nat} {d : Doc} {v : Value}, Decoder.any n d = .ok v → d.Single →
    ∃ u, d = .ofValue u ∧ u.Recasts n v
  | _, .null, _, read, _ => by
    rw [Decoder.any] at read
    obtain rfl := Except.ok.inj read
    exact ⟨.null, rfl, .refl _, trivial, Nat.zero_le _⟩
  | _, .bool b, _, read, _ => by
    rw [Decoder.any] at read
    obtain rfl := Except.ok.inj read
    exact ⟨.bool b, rfl, .refl _, trivial, Nat.zero_le _⟩
  | _, .number x, _, read, _ => by
    rw [Decoder.any] at read
    cases x with
    | error f => cases read
    | ok x =>
      obtain rfl := Except.ok.inj read
      exact ⟨.number x, rfl, .refl _, trivial, Nat.zero_le _⟩
  | _, .string s, _, read, _ => by
    rw [Decoder.any] at read
    cases s with
    | error f => cases read
    | ok s =>
      obtain rfl := Except.ok.inj read
      exact ⟨.string s, rfl, .refl _, trivial, Nat.zero_le _⟩
  | _, .broken f g, _, read, _ => by
    rw [Decoder.any] at read
    cases read
  | 0, .array items gap, _, read, _ => by cases read
  | 0, .object members gap, _, read, _ => by cases read
  | n + 1, .array items gap, v, read, single => by
    rw [any_array] at read
    obtain ⟨vs, items, read⟩ := bind_ok read
    obtain ⟨_, closed, read⟩ := bind_ok read
    obtain rfl := close_ok closed
    obtain rfl : Value.array vs = v := Except.ok.inj read
    obtain ⟨us, rfl, same⟩ := exists_items exists_recasts items single
    refine ⟨.array us, rfl, ?_, single, Nat.succ_le_succ (Value.Recasts.depthItems_le same)⟩
    rw [Value.Reorders]
    exact ⟨vs, rfl, .of_forall₂ (same.imp fun _ _ same => same.reorders)⟩
  | n + 1, .object members gap, v, read, single => by
    rw [any_object] at read
    obtain ⟨es, members, read⟩ := bind_ok read
    obtain ⟨_, closed, read⟩ := bind_ok read
    obtain rfl := close_ok closed
    obtain rfl : Value.object es = v := Except.ok.inj read
    obtain ⟨ms, parts, rfl, same, rfl⟩ := exists_members exists_recasts members single.2
    have distinct := Doc.keys_nodup.mp single.1
    rw [keys_eq (fun _ _ same => same.1) same] at distinct
    refine ⟨.object ms, rfl, ?_, single, Nat.succ_le_succ (Value.Recasts.depthMembers_le same)⟩
    rw [Value.Reorders]
    refine ⟨parts, _, rfl, .of_forall₂ (same.imp fun _ _ same => ⟨same.1, same.2.reorders⟩), ?_⟩
    exact (Entries.ofList_perm_self distinct).symm

/-- No object in the text repeats a key. -/
def SingleText (s : String) : Prop := (Document.ofChars s.toList).root.Single

/-- A text without repeated keys has the document of a value, which is what the text is parsed to up
to the order of members. -/
theorem exists_text_recasts {s : String} {v : Value} (parsed : Decoder.any.text s = .ok v)
    (single : SingleText s) : ∃ u : Value, u.Recasts v.depth v ∧ v.Recasts textLevels u ∧
      Document.ofChars s.toList = ⟨.ofValue u, false⟩ := by
  have read := text_read parsed
  obtain ⟨whole, ending⟩ := text_ok parsed
  obtain ⟨u, root, same⟩ := exists_recasts whole single
  refine ⟨u, ⟨same.reorders, same.single, same.reorders.depth_eq.le⟩,
    ⟨same.reorders.symm, read.ordered.single, read.depth⟩, ?_⟩
  rw [← root, ← ending]

/-- A reader that does not look at the order takes the same from a text and from the value that the
text is parsed to. -/
theorem text_eq_ok_iff {α : Type} {d : Decoder α} (agrees : ∀ k, Agrees k d d) {s : String}
    {v : Value} (parsed : Decoder.any.text s = .ok v) (single : SingleText s) {a : α} :
    d.text s = .ok a ↔ d.value v = .ok a := by
  obtain ⟨u, toValue, toText, document⟩ := exists_text_recasts parsed single
  have value : d.value v = .ok a ↔ d v.depth (.ofValue v) = .ok a := by
    unfold Decoder.value
    cases d v.depth (.ofValue v) <;> simp
  rw [text_of_document d document, value]
  constructor
  · exact (agrees _).take (Nat.lt_succ_self _) toValue
  · exact (agrees _).take (Nat.lt_succ_self _) toText

end BlockStage.Json
