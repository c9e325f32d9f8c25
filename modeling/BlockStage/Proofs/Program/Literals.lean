import BlockStage.Program.Json
import BlockStage.Proofs.Decimal.Whole
import BlockStage.Proofs.Json.Values
import BlockStage.Proofs.Structured.Fiber

/-! # Numbers in programs

Every number in a program that was read from JSON is finite: whole numbers of 64 bits are rounded to
finite numbers, and there is no text or value for others.
-/
namespace BlockStage

open BlockStage.Json (Value Doc Fault Decoder Number)

/-! ## Finite literals -/

/-- All numbers in the expression are finite. -/
def Expr.finiteLiterals : Expr → Bool
  | .num x => x.isFinite
  | .bin _ l r | .cmp _ l r | .logic _ l r => l.finiteLiterals && r.finiteLiterals
  | _ => true

def Command.FiniteLiterals (c : Command) : Prop :=
  ∀ d ∈ c.preorder, ∀ e ∈ d.operand?, e.finiteLiterals = true

def Script.FiniteLiterals (s : Script) : Prop := ∀ c ∈ s.commands, c.FiniteLiterals

def Program.FiniteLiterals (p : Program) : Prop := ∀ s ∈ p.roots, s.FiniteLiterals

namespace Command

theorem FiniteLiterals.operand {c : Command} (finite : c.FiniteLiterals) {e : Expr}
    (h : e ∈ c.operand?) : e.finiteLiterals = true :=
  finite c c.self_mem_preorder e h

theorem FiniteLiterals.body {c d : Command} {body : List Command} (finite : c.FiniteLiterals)
    (inside : body ∈ c.bodies) (h : d ∈ body) : d.FiniteLiterals := by
  intro b hb
  exact finite b (mem_preorder_of_body inside (mem_preorderList h hb))

theorem exists_of_mem_preorderList {d : Command} {cs : List Command} (h : d ∈ preorderList cs) :
    ∃ c ∈ cs, d ∈ c.preorder := by
  induction cs with
  | nil => cases h
  | cons c cs ih =>
    rcases List.mem_append.mp h with h | h
    · exact ⟨c, List.mem_cons_self, h⟩
    · obtain ⟨c', there, h⟩ := ih h
      exact ⟨c', List.mem_cons_of_mem c there, h⟩

theorem forall_preorder {P : Command → Prop} {c : Command} (own : P c)
    (inside : ∀ body ∈ c.bodies, ∀ d ∈ body, ∀ b ∈ d.preorder, P b) : ∀ d ∈ c.preorder, P d := by
  intro d hd
  have cases : d = c ∨ ∃ body ∈ c.bodies, d ∈ preorderList body := by
    cases c <;> simp_all [preorder, bodies]
  rcases cases with rfl | ⟨body, there, hd⟩
  · exact own
  · obtain ⟨b, hb, hd⟩ := exists_of_mem_preorderList hd
    exact inside body there b hb d hd

theorem FiniteLiterals.of_parts {c : Command}
    (own : ∀ e ∈ c.operand?, e.finiteLiterals = true)
    (inside : ∀ body ∈ c.bodies, ∀ d ∈ body, d.FiniteLiterals) : c.FiniteLiterals :=
  forall_preorder own inside

end Command

/-! ## What a reader yields -/

/-- Whatever is read, if anything is, has the property. -/
def Yields {α : Type} (P : α → Prop) (x : Except Fault α) : Prop := ∀ a, x = .ok a → P a

namespace Yields

variable {α β : Type} {P : α → Prop} {Q : β → Prop} {x : Except Fault α}

theorem ok {a : α} (h : P a) : Yields P (.ok a) := by
  rintro _ ⟨⟩
  exact h

theorem error {f : Fault} : Yields P (.error f) := by
  rintro _ ⟨⟩

theorem bind {f : α → Except Fault β} (first : Yields P x) (rest : ∀ a, P a → Yields Q (f a)) :
    Yields Q (x >>= f) := by
  intro b h
  obtain ⟨a, read, h⟩ := Json.bind_ok h
  exact rest a (first a read) b h

theorem bind_any {f : α → Except Fault β} (rest : ∀ a, Yields Q (f a)) : Yields Q (x >>= f) :=
  bind (P := fun _ => True) (fun _ _ => trivial) fun a _ => rest a

theorem mapM {bs : List β} {f : β → Except Fault α} (each : ∀ b ∈ bs, Yields P (f b)) :
    Yields (fun as => ∀ a ∈ as, P a) (bs.mapM f) := by
  induction bs with
  | nil =>
    refine ok ?_
    simp
  | cons b bs ih =>
    rw [List.mapM_cons]
    refine bind (each b List.mem_cons_self) fun a ha => ?_
    refine bind (ih fun b' hb => each b' (List.mem_cons_of_mem b hb)) fun as has => ok ?_
    rintro a' (_ | ⟨_, h⟩)
    · exact ha
    · exact has a' h

theorem foldlM {bs : List β} {f : α → β → Except Fault α} {a : α} (start : P a)
    (each : ∀ b ∈ bs, ∀ a, P a → Yields P (f a b)) : Yields P (bs.foldlM f a) := by
  induction bs generalizing a with
  | nil => exact ok start
  | cons b bs ih =>
    rw [List.foldlM_cons]
    exact bind (each b List.mem_cons_self a start) fun a' ha' =>
      ih ha' fun b' hb => each b' (List.mem_cons_of_mem b hb)

end Yields

/-! ## Readers of sound documents -/

theorem sound_of_mem {d : Doc} {ds : List Doc} (sound : Doc.SoundItems ds) (h : d ∈ ds) :
    d.Sound := by
  induction ds with
  | nil => cases h
  | cons d' ds ih =>
    rw [Doc.SoundItems] at sound
    rcases List.mem_cons.mp h with rfl | h
    · exact sound.1
    · exact ih sound.2 h

theorem sound_of_member {m : Except Fault String × Doc} {ms : Members}
    (sound : Doc.SoundMembers ms) (h : m ∈ ms) : m.2.Sound := by
  induction ms with
  | nil => cases h
  | cons m' ms ih =>
    rw [Doc.SoundMembers] at sound
    rcases List.mem_cons.mp h with rfl | h
    · exact sound.1
    · exact ih sound.2 h

mutual

theorem sound_ofValue : ∀ {v : Value}, v.Fits → (Doc.ofValue v).Sound
  | .null, _ | .bool _, _ | .string _, _ => by simp [Doc.ofValue, Doc.Sound]
  | .number n, fits => by
    rw [Doc.ofValue, Doc.Sound]
    rintro _ ⟨⟩
    exact fits
  | .array items, fits => by
    rw [Doc.ofValue, Doc.Sound]
    exact sound_ofItems fits
  | .object members, fits => by
    rw [Doc.ofValue, Doc.Sound]
    exact sound_ofMembers fits

theorem sound_ofItems : ∀ {vs : List Value}, Value.FitsItems vs → Doc.SoundItems (Doc.ofItems vs)
  | [], _ => trivial
  | _ :: _, fits => ⟨sound_ofValue fits.1, sound_ofItems fits.2⟩

theorem sound_ofMembers : ∀ {ms : List (String × Value)}, Value.FitsMembers ms →
    Doc.SoundMembers (Doc.ofMembers ms)
  | [], _ => trivial
  | _ :: _, fits => ⟨sound_ofValue fits.1, sound_ofMembers fits.2⟩

end

theorem toFloat_isFinite {n : Number} (fits : n.Fits) : n.toFloat.isFinite = true := by
  cases n with
  | float x => exact fits
  | int n =>
    obtain ⟨low, high⟩ := fits
    have low : -(2 ^ 63 : Int) ≤ n := low
    have high : n < 2 ^ 64 := high
    have finite : (Decimal.ofDecimal n.natAbs 0).isFinite = true :=
      Decimal.ofDecimal_isFinite (by omega)
    by_cases negative : n < 0
    · simp only [Number.toFloat, if_pos negative]
      exact Decimal.isFinite_neg finite
    · simp only [Number.toFloat, if_neg negative]
      exact finite

section Readers

variable {α : Type} {P : α → Prop} {d : Decoder α} {levels : Nat} {doc : Doc}

theorem float_yields (sound : doc.Sound) :
    Yields (fun x => x.isFinite = true) (Decoder.float levels doc) := by
  unfold Decoder.float
  split
  next n =>
    rw [Doc.Sound] at sound
    cases n with
    | error f => exact .error
    | ok n => exact .ok (toFloat_isFinite (sound n rfl))
  next => exact .error

theorem list_yields (each : ∀ {levels : Nat} {doc : Doc}, doc.Sound → Yields P (d levels doc))
    (sound : doc.Sound) : Yields (fun as => ∀ a ∈ as, P a) (Decoder.list d levels doc) := by
  unfold Decoder.list
  split
  next => exact .error
  next items gap =>
    rw [Doc.Sound] at sound
    refine .bind (.mapM fun doc h => each (sound_of_mem sound h)) fun as has => ?_
    exact .bind_any fun _ => .ok has
  next => exact .error

theorem entries_yields (each : ∀ {levels : Nat} {doc : Doc}, doc.Sound → Yields P (d levels doc))
    (sound : doc.Sound) :
    Yields (fun es => ∀ e ∈ es, P e.2) (Decoder.entries d levels doc) := by
  unfold Decoder.entries
  split
  next => exact .error
  next members gap =>
    rw [Doc.Sound] at sound
    refine .bind (P := fun es => ∀ e ∈ es, P e.2) (.foldlM (by simp) ?_) fun es hes =>
      .bind_any fun _ => .ok hes
    intro m hm es hes
    refine .bind_any fun key => .bind (each (sound_of_member sound hm)) fun a ha => .ok ?_
    intro e he
    rcases Entries.mem_insert he with rfl | he
    · exact ha
    · exact hes e he
  next => exact .error

theorem record_yields {δ : Type} {P : δ → Prop} {fields : List String}
    {put : String → (levels : Nat) → Doc → δ → Except Fault δ} {blank : δ} (start : P blank)
    (each : ∀ {key : String} {levels : Nat} {doc : Doc} {draft : δ}, doc.Sound → P draft →
      Yields P (put key levels doc draft))
    (sound : doc.Sound) : Yields P (Decoder.record fields put blank levels doc) := by
  unfold Decoder.record
  split
  next => exact .error
  next => exact .error
  next members gap =>
    rw [Doc.Sound] at sound
    refine .bind (P := fun s => P s.1) (.foldlM start ?_) fun s hs => .bind_any fun _ => .ok hs
    intro m hm s hs
    refine .bind_any fun key => ?_
    split
    · split
      · exact .error
      · exact .bind (each (sound_of_member sound hm) hs) fun draft hd => .ok hd
    · exact .bind_any fun _ => .ok hs
  next items gap =>
    rw [Doc.Sound] at sound
    refine .bind (.foldlM start ?_) fun draft hd => ?_
    · rintro ⟨key, doc⟩ h draft hd
      exact each (sound_of_mem sound (List.of_mem_zip h).2) hd
    · split
      · exact .error
      · exact .bind_any fun _ => .ok hd
  next => exact .error

end Readers

/-! ## Readers of programs -/

theorem Members.once_yields {key : String} {ms : Members} (sound : Doc.SoundMembers ms) :
    Yields Doc.Sound (Members.once key ms) := by
  unfold Members.once
  split
  next d under =>
    have mem : d ∈ Members.under key ms := under ▸ List.mem_singleton_self d
    obtain ⟨m, hm, found⟩ := List.mem_filterMap.mp mem
    refine .ok ?_
    have same : d = m.2 := by
      grind
    exact same ▸ sound_of_member sound hm
  next => exact .error

namespace Expr

theorem parts_yields {doc : Doc} (sound : doc.Sound) :
    Yields (fun p => ∀ fields, Yields (fun ds => ∀ d ∈ ds, d.Sound) (p.2 fields)) (parts doc) := by
  unfold parts
  split
  next members gap =>
    rw [Doc.Sound] at sound
    refine .bind_any fun tag => .bind_any fun kind => .ok fun fields => ?_
    exact .mapM fun f _ => Members.once_yields sound
  next tag items gap =>
    rw [Doc.Sound, Doc.SoundItems] at sound
    refine .bind_any fun kind => .ok fun fields => ?_
    dsimp only
    split
    · exact .ok fun d hd => sound_of_mem sound.2 hd
    · exact .error
  next => exact .error

theorem operands_yields {α : Type} {sub : Doc → Except Fault Expr}
    {ofSymbol? : String → Option α} {make : α → Expr → Expr → Expr}
    (each : ∀ {doc : Doc}, doc.Sound → Yields (fun e => e.finiteLiterals = true) (sub doc))
    (made : ∀ op l r, (make op l r).finiteLiterals = (l.finiteLiterals && r.finiteLiterals))
    {ds : List Doc} (sound : ∀ d ∈ ds, d.Sound) :
    Yields (fun e => e.finiteLiterals = true) (operands sub ofSymbol? make ds) := by
  unfold operands
  split
  next op left right =>
    refine .bind_any fun o => .bind (each (sound left (by simp))) fun l hl => ?_
    refine .bind (each (sound right (by simp))) fun r hr => .ok ?_
    rw [made, hl, hr]
    rfl
  next => exact .error

theorem single_yields {α : Type} {P : α → Prop} {d : Decoder α} {make : α → Expr}
    (each : ∀ {doc : Doc}, doc.Sound → Yields P (d 0 doc))
    (made : ∀ a, P a → (make a).finiteLiterals = true) {ds : List Doc}
    (sound : ∀ d ∈ ds, d.Sound) :
    Yields (fun e => e.finiteLiterals = true) (single d make ds) := by
  unfold single
  split
  next doc =>
    intro e read
    cases field : d 0 doc with
    | error f =>
      rw [field] at read
      cases read
    | ok a =>
      rw [field] at read
      cases read
      exact made a (each (sound doc (by simp)) a field)
  next => exact .error

theorem decodeWithin_yields (fuel : Nat) {doc : Doc} (sound : doc.Sound) :
    Yields (fun e => e.finiteLiterals = true) (decodeWithin fuel doc) := by
  induction fuel generalizing doc with
  | zero => exact .error
  | succ fuel ih =>
    have any {α : Type} {d : Decoder α} {doc : Doc} (_ : doc.Sound) :
        Yields (fun _ => True) (d 0 doc) := fun _ _ => trivial
    rw [decodeWithin]
    refine .bind (parts_yields sound) ?_
    rintro ⟨kind, fields⟩ look
    dsimp only at look ⊢
    split
    · refine .bind (look _) fun ds sound => single_yields float_yields ?_ sound
      exact fun _ finite => finite
    · exact .bind (look _) fun ds sound => single_yields any (fun _ _ => rfl) sound
    · exact .bind (look _) fun ds sound => single_yields any (fun _ _ => rfl) sound
    · exact .bind (look _) fun ds sound => single_yields any (fun _ _ => rfl) sound
    · exact .bind (look _) fun ds sound => operands_yields ih (fun _ _ _ => rfl) sound
    · exact .bind (look _) fun ds sound => operands_yields ih (fun _ _ _ => rfl) sound
    · exact .bind (look _) fun ds sound => operands_yields ih (fun _ _ _ => rfl) sound
    · exact .bind_any fun _ => .ok rfl

end Expr

namespace Command

section Parts

variable {id : String} {e : Expr} (finite : e.finiteLiterals = true)

theorem FiniteLiterals.plain {i : Instruction} (none : i.operand? = none) :
    (Command.simple id i).FiniteLiterals := by
  refine .of_parts (fun e h => ?_) (fun _ inside => by cases inside)
  rw [show (Command.simple id i).operand? = Option.none from none] at h
  cases h

include finite

theorem FiniteLiterals.simple {i : Instruction} (own : i.operand? = some e) :
    (Command.simple id i).FiniteLiterals := by
  refine .of_parts (fun e' h => ?_) (fun _ inside => by cases inside)
  rw [show (Command.simple id i).operand? = some e from own] at h
  cases h
  exact finite

theorem FiniteLiterals.control {c : Command} (own : c.operand? = some e)
    (inside : ∀ body ∈ c.bodies, ∀ d ∈ body, d.FiniteLiterals) : c.FiniteLiterals := by
  refine .of_parts (fun e' h => ?_) inside
  rw [own] at h
  cases h
  exact finite

end Parts

theorem decodeWithin_yields (fuel : Nat) {levels : Nat} {doc : Doc} (sound : doc.Sound) :
    Yields FiniteLiterals (decodeWithin fuel levels doc) := by
  induction fuel generalizing levels doc with
  | zero => exact .error
  | succ fuel ih =>
    unfold decodeWithin
    split
    next => exact .error
    next => exact .error
    next fuel' levels members gap same =>
      cases same
      rw [Doc.Sound] at sound
      have expr (key : String) : Yields (fun e => e.finiteLiterals = true)
          (Members.once key members >>= Expr.decodeWithin (levels + 1)) :=
        .bind (Members.once_yields sound) fun d hd => Expr.decodeWithin_yields _ hd
      have body (key : String) : Yields (fun cs => ∀ c ∈ cs, c.FiniteLiterals)
          (Members.once key members >>= Decoder.list (decodeWithin fuel) levels) :=
        .bind (Members.once_yields sound) fun d hd => list_yields ih hd
      refine .bind_any fun id => .bind_any fun _ => .bind_any fun tag => .bind_any fun type => ?_
      split
      -- motions and pauses
      · exact .bind (expr _) fun e he => .ok (.simple he rfl)
      · exact .bind (expr _) fun e he => .ok (.simple he rfl)
      · exact .bind (expr _) fun e he => .ok (.simple he rfl)
      -- commands with bodies
      · refine .bind (expr _) fun e he => .bind (body _) fun cs hcs => .ok (.control he rfl ?_)
        simpa [bodies] using hcs
      · refine .bind (body _) fun cs hcs => .ok (.of_parts (fun e h => by cases h) ?_)
        simpa [bodies] using hcs
      · refine .bind (expr _) fun e he => .bind (body _) fun cs hcs => .ok (.control he rfl ?_)
        simpa [bodies] using hcs
      · refine .bind (expr _) fun e he => .bind (body _) fun cs hcs =>
          .bind (body _) fun ds hds => .ok (.control he rfl ?_)
        simpa [bodies] using ⟨hcs, hds⟩
      -- variables
      · exact .bind_any fun n => .bind (expr _) fun e he => .ok (.simple he rfl)
      · exact .bind_any fun n => .bind (expr _) fun e he => .ok (.simple he rfl)
      · exact .bind_any fun n => .ok (.plain rfl)
      -- messages
      · refine .bind (expr _) fun e he => .bind_any fun found => ?_
        split
        · exact .bind_any fun wait => .ok (.simple he rfl)
        · exact .bind_any fun wait => .ok (.simple he rfl)
      -- exits, and what is not known
      all_goals exact .ok (.plain rfl)
    next => exact .error

end Command

theorem required_yields {α : Type} {P : α → Prop} {a : Option α} (h : ∀ x ∈ a, P x) :
    Yields P (Decoder.required a) := by
  cases a with
  | none => exact .error
  | some x => exact .ok (h x rfl)

theorem Script.decoder_yields {levels : Nat} {doc : Doc} (sound : doc.Sound) :
    Yields FiniteLiterals (decoder levels doc) := by
  refine .bind (P := fun draft => ∀ cs ∈ draft.commands, ∀ c ∈ cs, c.FiniteLiterals)
    (record_yields (by rintro _ ⟨⟩) ?_ sound) fun draft finite => ?_
  · intro key levels doc draft sound finite
    split
    · exact .bind_any fun id => .ok finite
    · refine .bind (list_yields (fun sound => Command.decodeWithin_yields _ sound) sound)
        fun cs hcs => .ok ?_
      rintro _ ⟨⟩
      exact hcs
  · exact .bind_any fun id => .bind (required_yields finite) fun cs hcs => .ok hcs

theorem Program.decoder_yields {levels : Nat} {doc : Doc} (sound : doc.Sound) :
    Yields FiniteLiterals (decoder levels doc) := by
  refine .bind (P := fun draft => (∀ ss ∈ draft.scripts, ∀ s ∈ ss, s.FiniteLiterals) ∧
      ∀ es ∈ draft.handlers, ∀ e ∈ es, ∀ s ∈ e.2, s.FiniteLiterals)
    (record_yields ⟨by rintro _ ⟨⟩, by rintro _ ⟨⟩⟩ ?_ sound) fun draft finite => ?_
  · intro key levels doc draft sound finite
    split
    · refine .bind (list_yields Script.decoder_yields sound) fun ss hss => .ok ⟨?_, finite.2⟩
      rintro _ ⟨⟩
      exact hss
    · refine .bind (entries_yields (list_yields Script.decoder_yields) sound) fun es hes =>
        .ok ⟨finite.1, ?_⟩
      rintro _ ⟨⟩
      exact hes
  · refine .bind (required_yields finite.1) fun ss hss => .ok ?_
    intro s hs
    rcases List.mem_append.mp hs with hs | hs
    · exact hss s hs
    · obtain ⟨ss, there, hs⟩ := List.mem_flatten.mp hs
      obtain ⟨e, he, rfl⟩ := List.mem_map.mp there
      have he := Entries.mem_ofList he
      cases handlers : draft.handlers with
      | none =>
        rw [handlers] at he
        cases he
      | some es =>
        rw [handlers] at he
        exact finite.2 es handlers e he s hs

end BlockStage
