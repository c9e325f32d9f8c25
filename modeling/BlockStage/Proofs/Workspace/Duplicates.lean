import BlockStage.Proofs.Workspace.Forest
import BlockStage.Proofs.Workspace.Height

/-! # Repeated identifiers

Loading takes up the blocks that count one after the other, each before what is connected to it, and
notes their identifiers. It fails at the first block whose identifier has been noted before, and at
nothing else. The empty identifier is never noted.

What is on the inputs of a block is taken up in the order of the names of the inputs: blocks that
are read have their inputs in this order.
-/
namespace BlockStage.Workspace

open BlockStage.Json (Value Doc Fault Decoder)

namespace Block

def id : Block → String
  | .mk _ id _ _ _ _ _ => id

def inputs : Block → List (String × Plug Block)
  | .mk _ _ _ _ _ inputs _ => inputs

end Block

/-- The identifiers of the blocks that count, in the order in which they are taken up. -/
def Tree.ids (t : Tree) : List String := t.reachable.map Block.id

/-- Nothing but the empty identifier repeats. -/
def Distinct (ids : List String) : Prop := ∀ id, id ≠ "" → ids.count id ≤ 1

/-- The first identifier that equals an earlier one, as it comes for the second time. -/
def FirstRepeat (ids : List String) (id : String) : Prop :=
  ∃ before after, ids = before ++ id :: after ∧ id ≠ "" ∧ id ∈ before ∧ Distinct before

/-! ## Noting identifiers -/

/-- Notes an identifier among those seen. -/
def see (seen : List String) (id : String) : Except LoadError (List String) :=
  if id.isEmpty then .ok seen
  else if seen.contains id then .error (.duplicateId id)
  else .ok (id :: seen)

section Noting

variable {ids before : List String} {id : String}

theorem Distinct.of_append (h : Distinct (before ++ ids)) : Distinct before := by
  intro id some
  have count := h id some
  rw [List.count_append] at count
  exact Nat.le_of_add_right_le count

theorem Distinct.fresh (h : Distinct (before ++ [id])) (some : id ≠ "") : id ∉ before := by
  intro there
  have count := h id some
  have positive := List.count_pos_iff.mpr there
  rw [List.count_append, List.count_singleton_self] at count
  omega

theorem foldlM_see (h : Distinct ids) :
    ids.foldlM see [] = .ok (ids.filter (· ≠ "")).reverse := by
  induction ids using List.reverseRecOn with
  | nil => rfl
  | append_singleton ids id ih =>
    rw [List.foldlM_append, ih h.of_append]
    by_cases some : id = ""
    · subst some
      simp [see, bind, Except.bind, pure, Except.pure]
    · have fresh := h.fresh some
      simp [see, bind, Except.bind, pure, Except.pure, some, fresh]

theorem FirstRepeat.foldlM_see (h : FirstRepeat ids id) :
    ids.foldlM see [] = .error (.duplicateId id) := by
  obtain ⟨before, after, rfl, some, seen, distinct⟩ := h
  rw [List.foldlM_append, Workspace.foldlM_see distinct]
  simp [see, bind, Except.bind, some, seen]

theorem exists_firstRepeat (h : ¬ Distinct ids) : ∃ id, FirstRepeat ids id := by
  induction ids using List.reverseRecOn with
  | nil => exact absurd (fun id _ => by simp) h
  | append_singleton ids last ih =>
    by_cases distinct : Distinct ids
    · refine ⟨last, ids, [], rfl, ?_⟩
      by_contra fresh
      apply h
      intro id some
      have before := distinct id some
      rw [List.count_append]
      by_cases same : last = id
      · subst same
        have none : ids.count last = 0 :=
          List.count_eq_zero.mpr fun there => fresh ⟨some, there, distinct⟩
        rw [none, List.count_singleton_self]
      · rw [List.count_singleton, beq_false_of_ne same]
        exact before
    · obtain ⟨id, before, after, rfl, repeats⟩ := ih distinct
      exact ⟨id, before, after ++ [last], by simp, repeats⟩

end Noting

/-! ## Loading -/

namespace Loader

/-- Loading notes these identifiers one after the other, and fails where noting them does. -/
def Notes {α : Type} (x : Except LoadError (α × Loader)) (seen ids : List String) : Prop :=
  x.map (fun r => r.2.seen) = ids.foldlM see seen

namespace Notes

variable {α β : Type} {x : Except LoadError (α × Loader)} {seen ids ids' : List String}
  {f : α × Loader → Except LoadError (β × Loader)}

theorem ok (a : α) (l : Loader) : Notes (.ok (a, l)) l.seen [] := rfl

theorem bind (first : Notes x seen ids) (rest : ∀ a l, Notes (f (a, l)) l.seen ids') :
    Notes (x >>= f) seen (ids ++ ids') := by
  rw [Notes, List.foldlM_append, ← first]
  cases x with
  | error err => rfl
  | ok r => exact rest r.1 r.2

theorem andThen (first : Notes x seen ids) (rest : ∀ a l, Notes (f (a, l)) l.seen []) :
    Notes (x >>= f) seen ids := by
  have both := first.bind rest
  rwa [List.append_nil] at both

end Notes

variable (named : List Variable)

theorem push_seen (l : Loader) (kind id : String) (fields : Entries String) :
    (l.push kind id fields).map Loader.seen = see l.seen id := by
  unfold push see
  split
  · rfl
  · split <;> rfl

mutual

theorem load_notes (l : Loader) (b : Block) :
    Notes (l.load named b) l.seen (b.reachable.map Block.id) := by
  obtain ⟨kind, id, x, y, fields, inputs, next⟩ := b
  rw [load, Block.reachable, List.map_cons, List.map_append, Notes, List.foldlM_cons, Block.id,
    ← push_seen l kind id (fields.filterMap fun f => (fieldText named f.2).map fun t => (f.1, t))]
  cases l.push kind id _ with
  | error err => rfl
  | ok pushed =>
    refine (loadInputs_notes pushed inputs).bind fun targets below => ?_
    exact (loadNext_notes below next).andThen fun target after => .ok _ (after.connect _ _ _)

theorem loadInputs_notes (l : Loader) (inputs : List (String × Plug Block)) :
    Notes (l.loadInputs named inputs) l.seen ((reachableInputs inputs).map Block.id) := by
  match inputs with
  | [] => rw [loadInputs, reachableInputs]; exact .ok _ l
  | (name, plug) :: rest =>
    rw [loadInputs, reachableInputs, List.map_append]
    refine (loadPlug_notes l plug).bind fun target here => ?_
    refine (loadInputs_notes here rest).andThen fun targets more => ?_
    cases target with
    | none => exact .ok targets more
    | some i => exact .ok ((name, i) :: targets) more

theorem loadNext_notes (l : Loader) (next : Option (Plug Block)) :
    Notes (l.loadNext named next) l.seen ((reachableNext next).map Block.id) := by
  match next with
  | none => rw [loadNext, reachableNext]; exact .ok _ l
  | some plug => rw [loadNext, reachableNext]; exact loadPlug_notes l plug

theorem loadPlug_notes (l : Loader) (plug : Plug Block) :
    Notes (l.loadPlug named plug) l.seen ((reachablePlug plug).map Block.id) := by
  match plug with
  | ⟨some b, _⟩ =>
    rw [loadPlug, reachablePlug]
    exact (load_notes l b).andThen fun i after => .ok (some i) after
  | ⟨none, some b⟩ =>
    rw [loadPlug, reachablePlug]
    exact (load_notes l b).andThen fun i after => .ok (some i) after
  | ⟨none, none⟩ => rw [loadPlug, reachablePlug]; exact .ok _ l

end

theorem loadAll_notes (l : Loader) (bs : List Block) :
    Notes (loadAll named l bs) l.seen ((bs.flatMap Block.reachable).map Block.id) := by
  induction bs generalizing l with
  | nil => exact .ok [] l
  | cons b bs ih =>
    rw [loadAll, List.flatMap_cons, List.map_append]
    refine (load_notes named l b).bind fun i here => ?_
    exact (ih here).andThen fun placed more => .ok _ more

end Loader

/-- Loading a tree succeeds or fails as noting its identifiers does. -/
theorem ofTree_notes (t : Tree) :
    (Graph.ofTree t).map (fun _ => ()) = (t.ids.foldlM see []).map (fun _ => ()) := by
  have notes : (Loader.loadAll t.named {} t.blocks).map (fun r => r.2.seen) =
      t.ids.foldlM see [] := Loader.loadAll_notes t.named {} t.blocks
  rw [← notes, Graph.ofTree]
  cases Loader.loadAll t.named {} t.blocks with
  | error err => rfl
  | ok r => rfl

theorem FirstRepeat.not_loaded {t : Tree} {id : String} (repeats : FirstRepeat t.ids id) :
    Graph.ofTree t = .error (.duplicateId id) := by
  have notes := ofTree_notes t
  rw [repeats.foldlM_see] at notes
  cases loaded : Graph.ofTree t with
  | ok g => rw [loaded] at notes; cases notes
  | error err => rw [loaded] at notes; exact congrArg _ (Except.error.inj notes)

theorem distinct_of_loaded {t : Tree} {g : Graph} (loaded : Graph.ofTree t = .ok g) :
    Distinct t.ids := by
  by_contra repeats
  obtain ⟨id, first⟩ := exists_firstRepeat repeats
  rw [first.not_loaded] at loaded
  cases loaded

/-! ## The order of the inputs -/

/-- The inputs of the block, and of all blocks that count inside it, are in the order of their
names. -/
def Block.Ordered (b : Block) : Prop := ∀ c ∈ b.reachable, Entries.Sorted c.inputs

/-- The tree is read from a text or from a value. -/
def Tree.IsRead (t : Tree) : Prop :=
  (∃ s, Tree.decoder.text s = .ok t) ∨ ∃ v, Tree.decoder.value v = .ok t

def Plug.Ordered (p : Plug Block) : Prop := ∀ c ∈ reachablePlug p, Entries.Sorted c.inputs

theorem Plug.Ordered.of_parts {p : Plug Block} (block : ∀ b ∈ p.block, b.Ordered)
    (shadow : ∀ b ∈ p.shadow, b.Ordered) : p.Ordered := by
  match p with
  | ⟨some b, _⟩ => exact block b rfl
  | ⟨none, some b⟩ => exact shadow b rfl
  | ⟨none, none⟩ => rintro c ⟨⟩

theorem reachableInputs_mem {inputs : List (String × Plug Block)} {c : Block}
    (h : c ∈ reachableInputs inputs) : ∃ e ∈ inputs, c ∈ reachablePlug e.2 := by
  induction inputs with
  | nil => cases h
  | cons e inputs ih =>
    rw [reachableInputs] at h
    rcases List.mem_append.mp h with here | later
    · exact ⟨e, List.mem_cons_self, here⟩
    · obtain ⟨e', there, found⟩ := ih later
      exact ⟨e', List.mem_cons_of_mem e there, found⟩

theorem Block.Ordered.of_parts {kind id : String} {x y : Float} {fields : List (String × Value)}
    {inputs : List (String × Plug Block)} {next : Option (Plug Block)}
    (sorted : Entries.Sorted inputs) (below : ∀ e ∈ inputs, e.2.Ordered)
    (after : ∀ p ∈ next, p.Ordered) : (Block.mk kind id x y fields inputs next).Ordered := by
  intro c hc
  rw [reachable] at hc
  rcases List.mem_cons.mp hc with rfl | hc
  · exact sorted
  · rcases List.mem_append.mp hc with hc | hc
    · obtain ⟨e, there, found⟩ := reachableInputs_mem hc
      exact below e there c found
    · cases next with
      | none => cases hc
      | some p => exact after p rfl c hc

theorem Plug.decoder_ordered {block : Decoder Block}
    (each : ∀ levels doc, Yields Block.Ordered (block levels doc)) (levels : Nat) (doc : Doc) :
    Yields Plug.Ordered (Plug.decoder block levels doc) := by
  refine .bind (record_levels (P := fun _ draft => (∀ b ∈ draft.block, b.Ordered) ∧
    ∀ b ∈ draft.shadow, b.Ordered) (fun n => ⟨by rintro _ ⟨⟩, by rintro _ ⟨⟩⟩) ?_ levels doc) ?_
  · rintro key n doc draft ⟨hb, hs⟩
    split
    · exact .bind (optional_levels each n doc) fun b h => .ok ⟨h, hs⟩
    · exact .bind (optional_levels each n doc) fun s h => .ok ⟨hb, h⟩
  · rintro draft ⟨n, rfl, hb, hs⟩
    exact .ok (.of_parts hb hs)

theorem Block.decodeWithin_ordered (fuel levels : Nat) (doc : Doc) :
    Yields Block.Ordered (decodeWithin fuel levels doc) := by
  induction fuel generalizing levels doc with
  | zero => exact .error
  | succ fuel ih =>
    have plug := Plug.decoder_ordered ih
    rw [decodeWithin]
    refine .bind (record_levels (P := fun _ draft => (Entries.Sorted draft.inputs ∧
      ∀ e ∈ draft.inputs, e.2.Ordered) ∧ ∀ p ∈ draft.next, p.Ordered)
      (fun n => ⟨⟨by exact .nil, by simp⟩, by rintro _ ⟨⟩⟩) ?_ levels doc) ?_
    · rintro key n doc draft ⟨inputs, next⟩
      split
      · exact .bind_any fun _ => .ok ⟨inputs, next⟩
      · exact .bind_any fun _ => .ok ⟨inputs, next⟩
      · exact .bind_any fun _ => .ok ⟨inputs, next⟩
      · exact .bind_any fun _ => .ok ⟨inputs, next⟩
      · exact .bind_any fun _ => .ok ⟨inputs, next⟩
      · refine .bind (entries_levels plug n doc) ?_
        rintro es ⟨sorted, _, _, each⟩
        exact .ok ⟨⟨sorted, each⟩, next⟩
      · exact .bind (optional_levels plug n doc) fun p h => .ok ⟨inputs, h⟩
    · rintro draft ⟨n, rfl, ⟨sorted, below⟩, after⟩
      exact .bind_any fun kind => .ok (.of_parts sorted below after)

theorem Tree.decoder_ordered (levels : Nat) (doc : Doc) :
    Yields (fun t => ∀ b ∈ t.blocks, b.Ordered) (Tree.decoder levels doc) := by
  have blocks : ∀ levels doc, Yields (fun bs => ∀ b ∈ bs, b.Ordered)
      (blocksDecoder levels doc) := by
    intro levels doc bs read
    obtain ⟨n, rfl, each⟩ := record_levels (P := fun _ bs => ∀ b ∈ bs, b.Ordered)
      (fun n => by simp) (fun _ n doc _ _ bs read => by
        obtain ⟨m, rfl, each⟩ := list_levels
          (fun levels doc => Block.decodeWithin_ordered _ levels doc) n doc bs read
        exact each) levels doc bs read
    exact each
  intro t read
  obtain ⟨n, rfl, each⟩ := record_levels
    (P := fun _ (t : Tree) => ∀ b ∈ t.blocks, b.Ordered) (fun n => by simp) (by
      intro key n doc draft same
      split
      · exact .bind (blocks n doc) fun bs h => .ok h
      · exact .bind_any fun _ => .ok same) levels doc t read
  exact each

/-- In a tree that is read, the blocks that count are taken up in the order of the names of their
inputs. -/
theorem Tree.IsRead.ordered {t : Tree} (h : t.IsRead) :
    ∀ b ∈ t.reachable, Entries.Sorted b.inputs := by
  have each : ∀ b ∈ t.blocks, b.Ordered := by
    rcases h with ⟨s, read⟩ | ⟨v, read⟩
    · obtain ⟨t', decoded, rest⟩ := Json.bind_ok read
      split at rest
      · cases rest
      · cases rest
        exact Tree.decoder_ordered _ _ _ decoded
    · unfold Decoder.value at read
      split at read
      next decoded =>
        cases read
        exact Tree.decoder_ordered _ _ _ decoded
      · cases read
  intro c hc
  obtain ⟨b, there, found⟩ := List.mem_flatMap.mp hc
  exact each b there c found

/-- A tree can be loaded if and only if no identifier but the empty one occurs twice among the
blocks that count; else the error names the first identifier that equals an earlier one. The order
is that of loading: a block, then what is on its inputs, then what follows it. The inputs of a tree
that is read are in the order of their names. -/
theorem loading_fails_at_first_repeat (t : Tree) :
    ((∃ g, Graph.ofTree t = .ok g) ↔ Distinct t.ids) ∧
    (∀ err, Graph.ofTree t = .error err ↔
      ∃ id, err = .duplicateId id ∧ FirstRepeat t.ids id) ∧
    (t.IsRead → ∀ b ∈ t.reachable, Entries.Sorted b.inputs) := by
  have loads : Distinct t.ids → ∃ g, Graph.ofTree t = .ok g := by
    intro distinct
    have notes := ofTree_notes t
    rw [foldlM_see distinct] at notes
    cases loaded : Graph.ofTree t with
    | ok g => exact ⟨g, rfl⟩
    | error err => rw [loaded] at notes; cases notes
  refine ⟨⟨?_, loads⟩, fun err => ⟨?_, ?_⟩, fun read => read.ordered⟩
  · rintro ⟨g, loaded⟩
    exact distinct_of_loaded loaded
  · intro failed
    by_cases distinct : Distinct t.ids
    · obtain ⟨g, loaded⟩ := loads distinct
      rw [failed] at loaded
      cases loaded
    · obtain ⟨id, first⟩ := exists_firstRepeat distinct
      rw [first.not_loaded] at failed
      exact ⟨id, (Except.error.inj failed).symm, first⟩
  · rintro ⟨id, rfl, first⟩
    exact first.not_loaded

/-- The identifier of the second input is the first one to repeat, behind it; the hidden shadow
counts for nothing, and neither do blocks without an identifier. -/
example :
    let value (id : String) : Block := .mk "math_number" id 0 0 [] [] none
    let sum : Block := .mk "math_arithmetic" "s" 0 0 []
      [("A", ⟨some (value "p"), some (value "s")⟩), ("B", ⟨none, some (value "q")⟩)]
      (some ⟨some (value "q"), none⟩)
    Graph.ofTree ⟨[value "", sum, value "", value "p"], []⟩ = .error (.duplicateId "q") := rfl

end BlockStage.Workspace
