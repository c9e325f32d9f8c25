import BlockStage.Proofs.Program.Literals
import BlockStage.Workspace.Block

/-! # The height of blocks

How many containers a block needs around what is connected to it. A reader that may open so many
containers gives no blocks that are higher, so the height of the blocks in a workspace is bounded by
what a text allows.
-/
namespace BlockStage.Workspace

open BlockStage.Json (Value Doc Fault Decoder)

mutual

/-- The containers that the text of a block opens at least inside one another. At a connection the
block that counts is measured. -/
def Block.height : Block → Nat
  | .mk _ _ _ _ _ inputs next => max (heightInputs inputs) (heightNext next) + 1

def heightInputs : List (String × Plug Block) → Nat
  | [] => 0
  | (_, plug) :: rest => max (heightPlug plug + 2) (heightInputs rest)

def heightNext : Option (Plug Block) → Nat
  | none => 0
  | some plug => heightPlug plug + 1

def heightPlug : Plug Block → Nat
  | ⟨some b, _⟩ => b.height
  | ⟨none, some b⟩ => b.height
  | ⟨none, none⟩ => 0

end

theorem heightPlug_le {plug : Plug Block} {n : Nat} (block : ∀ b ∈ plug.block, b.height ≤ n)
    (shadow : ∀ b ∈ plug.shadow, b.height ≤ n) : heightPlug plug ≤ n := by
  match plug with
  | ⟨some b, _⟩ => exact block b rfl
  | ⟨none, some b⟩ => exact shadow b rfl
  | ⟨none, none⟩ => exact Nat.zero_le n

theorem heightInputs_le {inputs : List (String × Plug Block)} {n : Nat}
    (each : ∀ e ∈ inputs, heightPlug e.2 + 2 ≤ n) : heightInputs inputs ≤ n := by
  induction inputs with
  | nil => exact Nat.zero_le n
  | cons e inputs ih =>
    rw [heightInputs]
    have first := each e List.mem_cons_self
    have rest := ih fun e' he => each e' (List.mem_cons_of_mem e he)
    exact Nat.max_le.mpr ⟨first, rest⟩

/-! ## Levels -/

section Levels

variable {α : Type} {P : Nat → α → Prop} {d : Decoder α}
  (each : ∀ levels doc, Yields (P levels) (d levels doc))

include each

theorem optional_levels (levels : Nat) (doc : Doc) :
    Yields (fun o => ∀ a ∈ o, P levels a) (Decoder.optional d levels doc) := by
  unfold Decoder.optional
  split
  · exact .ok (by simp)
  · intro o read
    cases found : d levels doc with
    | error f =>
      rw [found] at read
      cases read
    | ok a =>
      rw [found] at read
      cases read
      rintro _ ⟨⟩
      exact each levels doc a found

theorem list_levels (levels : Nat) (doc : Doc) :
    Yields (fun as => ∃ n, n + 1 = levels ∧ ∀ a ∈ as, P n a) (Decoder.list d levels doc) := by
  unfold Decoder.list
  split
  next => exact .error
  next levels items gap =>
    exact .bind (.mapM fun doc _ => each levels doc) fun as has =>
      .bind_any fun _ => .ok ⟨levels, rfl, has⟩
  next => exact .error

theorem entries_levels (levels : Nat) (doc : Doc) :
    Yields (fun es => Entries.Sorted es ∧ ∃ n, n + 1 = levels ∧ ∀ e ∈ es, P n e.2)
      (Decoder.entries d levels doc) := by
  unfold Decoder.entries
  split
  next => exact .error
  next levels members gap =>
    refine .bind (P := fun es => Entries.Sorted es ∧ ∀ e ∈ es, P levels e.2)
      (.foldlM ⟨.nil, by simp⟩ ?_) fun es ⟨sorted, hes⟩ =>
        .bind_any fun _ => .ok ⟨sorted, levels, rfl, hes⟩
    rintro m _ es ⟨sorted, hes⟩
    refine .bind_any fun key => .bind (each levels m.2) fun a ha => .ok ?_
    refine ⟨sorted.insert key a, fun e he => ?_⟩
    rcases Entries.mem_insert he with rfl | he
    · exact ha
    · exact hes e he
  next => exact .error

end Levels

theorem record_levels {δ : Type} {P : Nat → δ → Prop} {fields : List String}
    {put : String → (levels : Nat) → Doc → δ → Except Fault δ} {blank : δ}
    (start : ∀ n, P n blank)
    (each : ∀ key n doc draft, P n draft → Yields (P n) (put key n doc draft))
    (levels : Nat) (doc : Doc) :
    Yields (fun draft => ∃ n, n + 1 = levels ∧ P n draft)
      (Decoder.record fields put blank levels doc) := by
  unfold Decoder.record
  split
  next => exact .error
  next => exact .error
  next n members gap =>
    refine .bind (P := fun s => P n s.1) (.foldlM (start n) ?_) fun s hs =>
      .bind_any fun _ => .ok ⟨n, rfl, hs⟩
    intro m _ s hs
    refine .bind_any fun key => ?_
    split
    · split
      · exact .error
      · exact .bind (each _ n m.2 _ hs) fun draft hd => .ok hd
    · exact .bind_any fun _ => .ok hs
  next n items gap =>
    refine .bind (.foldlM (start n) ?_) fun draft hd => ?_
    · rintro ⟨key, doc⟩ _ draft hd
      exact each key n doc draft hd
    · split
      · exact .error
      · exact .bind_any fun _ => .ok ⟨n, rfl, hd⟩
  next => exact .error

/-! ## Readers of workspaces -/

theorem Plug.decoder_levels {block : Decoder Block}
    (each : ∀ levels doc, Yields (fun b => b.height ≤ levels) (block levels doc))
    (levels : Nat) (doc : Doc) :
    Yields (fun plug => heightPlug plug + 1 ≤ levels) (Plug.decoder block levels doc) := by
  refine .bind (record_levels (P := fun n draft => (∀ b ∈ draft.block, b.height ≤ n) ∧
    ∀ b ∈ draft.shadow, b.height ≤ n) (fun n => ⟨by rintro _ ⟨⟩, by rintro _ ⟨⟩⟩) ?_ levels doc) ?_
  · rintro key n doc draft ⟨hb, hs⟩
    split
    · exact .bind (optional_levels each n doc) fun b h => .ok ⟨h, hs⟩
    · exact .bind (optional_levels each n doc) fun s h => .ok ⟨hb, h⟩
  · rintro draft ⟨n, rfl, hb, hs⟩
    exact .ok (Nat.succ_le_succ (heightPlug_le hb hs))

/-- A block that is read is no higher than the containers that may be opened. -/
theorem Block.decodeWithin_levels (fuel levels : Nat) (doc : Doc) :
    Yields (fun b => b.height ≤ levels) (decodeWithin fuel levels doc) := by
  induction fuel generalizing levels doc with
  | zero => exact .error
  | succ fuel ih =>
    have plug := Plug.decoder_levels ih
    rw [decodeWithin]
    refine .bind (record_levels (P := fun n draft =>
      (∀ e ∈ draft.inputs, heightPlug e.2 + 2 ≤ n) ∧ ∀ p ∈ draft.next, heightPlug p + 1 ≤ n)
      (fun n => ⟨by simp, by rintro _ ⟨⟩⟩) ?_ levels doc) ?_
    · rintro key n doc draft ⟨inputs, next⟩
      split
      · exact .bind_any fun _ => .ok ⟨inputs, next⟩
      · exact .bind_any fun _ => .ok ⟨inputs, next⟩
      · exact .bind_any fun _ => .ok ⟨inputs, next⟩
      · exact .bind_any fun _ => .ok ⟨inputs, next⟩
      · exact .bind_any fun _ => .ok ⟨inputs, next⟩
      · refine .bind (entries_levels plug n doc) ?_
        rintro es ⟨_, m, rfl, h⟩
        exact .ok ⟨fun e he => Nat.succ_le_succ (h e he), next⟩
      · exact .bind (optional_levels plug n doc) fun p h => .ok ⟨inputs, h⟩
    · rintro draft ⟨n, rfl, inputs, next⟩
      refine .bind_any fun kind => .ok ?_
      have behind : heightNext draft.next ≤ n := by
        cases found : draft.next with
        | none => exact Nat.zero_le n
        | some p => exact next p found
      exact Nat.succ_le_succ (Nat.max_le.mpr ⟨heightInputs_le inputs, behind⟩)

theorem Tree.decoder_levels (levels : Nat) (doc : Doc) :
    Yields (fun t => ∀ b ∈ t.blocks, b.height + 3 ≤ levels) (Tree.decoder levels doc) := by
  have blocks : ∀ levels doc, Yields (fun bs => ∀ b ∈ bs, b.height + 2 ≤ levels)
      (blocksDecoder levels doc) := by
    intro levels doc bs read
    obtain ⟨n, rfl, each⟩ := record_levels (P := fun n bs => ∀ b ∈ bs, b.height + 1 ≤ n)
      (fun n => by simp) (fun _ n doc _ _ bs read => by
        obtain ⟨m, rfl, each⟩ := list_levels
          (fun levels doc => Block.decodeWithin_levels _ levels doc) n doc bs read
        exact fun b hb => Nat.succ_le_succ (each b hb)) levels doc bs read
    exact fun b hb => Nat.succ_le_succ (each b hb)
  intro t read
  obtain ⟨n, rfl, each⟩ := record_levels
    (P := fun n (t : Tree) => ∀ b ∈ t.blocks, b.height + 2 ≤ n) (fun n => by simp) (by
      intro key n doc draft same
      split
      · exact .bind (blocks n doc) fun bs h => .ok h
      · exact .bind_any fun _ => .ok same) levels doc t read
  exact fun b hb => Nat.succ_le_succ (each b hb)

end BlockStage.Workspace
