import BlockStage.Json.Decoder
import BlockStage.Proofs.Dict
import BlockStage.Proofs.Json.Text

/-! # Values read from texts

What is read as any value has the members of its objects in the order of their keys and no more
containers inside one another than the reader allows, and its numbers are numbers of JSON. Of such a
value, the document is read as the value again, as far as its containers are allowed.
-/
namespace BlockStage.Json

namespace Value

mutual

/-- The members of all objects inside are in the order of their keys. -/
def Ordered : Value → Prop
  | .array items => OrderedItems items
  | .object members => Entries.Sorted members ∧ OrderedMembers members
  | _ => True

def OrderedItems : List Value → Prop
  | [] => True
  | v :: vs => v.Ordered ∧ OrderedItems vs

def OrderedMembers : List (String × Value) → Prop
  | [] => True
  | (_, v) :: ms => v.Ordered ∧ OrderedMembers ms

end

end Value

/-- One member of an object is read. -/
def anyMember (levels : Nat) (es : Entries Value) (m : Except Fault String × Doc) :
    Except Fault (Entries Value) := do
  let key ← m.1
  let v ← Decoder.any levels m.2
  return Entries.insert key v es

theorem any_array (levels : Nat) (items : List Doc) (gap : Option Fault) :
    Decoder.any (levels + 1) (.array items gap) = (do
      let vs ← items.mapM (Decoder.any levels)
      Decoder.close gap
      return .array vs) := by
  rw [Decoder.any]

theorem any_object (levels : Nat) (members : List (Except Fault String × Doc))
    (gap : Option Fault) :
    Decoder.any (levels + 1) (.object members gap) = (do
      let es ← members.foldlM (anyMember levels) []
      Decoder.close gap
      return .object es) := by
  rw [Decoder.any]
  rfl

/-! ## Reading the document of a value -/

mutual

/-- The document of an ordered value is read as the value, unless its containers are too many. -/
theorem any_ofValue : ∀ (v : Value), v.Ordered → ∀ levels,
    Decoder.any levels (.ofValue v) = if v.depth ≤ levels then .ok v else .error .malformed
  | .null, _, levels => by
    rw [Doc.ofValue, Decoder.any]
    exact (if_pos (Nat.zero_le levels)).symm
  | .bool _, _, levels => by
    rw [Doc.ofValue, Decoder.any]
    exact (if_pos (Nat.zero_le levels)).symm
  | .number _, _, levels => by
    rw [Doc.ofValue, Decoder.any]
    exact (if_pos (Nat.zero_le levels)).symm
  | .string _, _, levels => by
    rw [Doc.ofValue, Decoder.any]
    exact (if_pos (Nat.zero_le levels)).symm
  | .array _, _, 0 => rfl
  | .object _, _, 0 => rfl
  | .array items, ordered, levels + 1 => by
    rw [Doc.ofValue, any_array, any_ofItems items ordered levels, Value.depth]
    by_cases allowed : Value.depthItems items ≤ levels
    · rw [if_pos allowed, if_pos (by omega)]
      rfl
    · rw [if_neg allowed, if_neg (by omega)]
      rfl
  | .object members, ordered, levels + 1 => by
    rw [Doc.ofValue, any_object, any_ofMembers members ordered.2 levels [] ordered.1, Value.depth]
    by_cases allowed : Value.depthMembers members ≤ levels
    · rw [if_pos allowed, if_pos (by omega)]
      rfl
    · rw [if_neg allowed, if_neg (by omega)]
      rfl

theorem any_ofItems : ∀ (vs : List Value), Value.OrderedItems vs → ∀ levels,
    (Doc.ofItems vs).mapM (Decoder.any levels) =
      if Value.depthItems vs ≤ levels then .ok vs else .error .malformed
  | [], _, _ => rfl
  | v :: vs, ordered, levels => by
    rw [Doc.ofItems, List.mapM_cons, any_ofValue v ordered.1, any_ofItems vs ordered.2,
      Value.depthItems]
    by_cases first : v.depth ≤ levels
    · by_cases rest : Value.depthItems vs ≤ levels
      · rw [if_pos first, if_pos rest, if_pos (by omega)]
        rfl
      · rw [if_pos first, if_neg rest, if_neg (by omega)]
        rfl
    · have exceeds : ¬ max v.depth (Value.depthItems vs) ≤ levels := by omega
      rw [if_neg first, if_neg exceeds]
      rfl

theorem any_ofMembers : ∀ (ms : List (String × Value)), Value.OrderedMembers ms → ∀ levels
    (done : Entries Value), Entries.Sorted (done ++ ms) →
    (Doc.ofMembers ms).foldlM (anyMember levels) done =
      if Value.depthMembers ms ≤ levels then .ok (done ++ ms) else .error .malformed
  | [], _, _, done, _ => by
    rw [List.append_nil]
    rfl
  | (k, v) :: ms, ordered, levels, done, sorted => by
    have above : ∀ e ∈ done, e.1 < k := fun e he =>
      (List.pairwise_append.mp sorted).2.2 e he (k, v) List.mem_cons_self
    have member : anyMember levels done (.ok k, .ofValue v) =
        if v.depth ≤ levels then .ok (done ++ [(k, v)]) else .error .malformed := by
      unfold anyMember
      rw [any_ofValue v ordered.1, ← Entries.insert_last above v]
      split <;> rfl
    have rest := any_ofMembers ms ordered.2 levels (done ++ [(k, v)]) (by simpa using sorted)
    rw [List.append_assoc, List.singleton_append] at rest
    rw [Doc.ofMembers, List.foldlM_cons, member, Value.depthMembers]
    by_cases first : v.depth ≤ levels
    · rw [if_pos first]
      change (Doc.ofMembers ms).foldlM (anyMember levels) (done ++ [(k, v)]) = _
      rw [rest]
      by_cases others : Value.depthMembers ms ≤ levels
      · rw [if_pos others, if_pos (by omega)]
      · rw [if_neg others, if_neg (by omega)]
    · rw [if_neg first, if_neg (by omega)]
      rfl

end

/-! ## What is read from a document -/

namespace Doc

mutual

/-- All numbers inside that can be read are numbers of JSON. -/
def Sound : Doc → Prop
  | .number n => ∀ x, n = .ok x → x.Fits
  | .array items _ => SoundItems items
  | .object members _ => SoundMembers members
  | _ => True

def SoundItems : List Doc → Prop
  | [] => True
  | d :: ds => d.Sound ∧ SoundItems ds

def SoundMembers : List (Except Fault String × Doc) → Prop
  | [] => True
  | (_, d) :: ds => d.Sound ∧ SoundMembers ds

end

end Doc

/-- What the readers of a document guarantee for a value. -/
structure Value.Read (levels : Nat) (v : Value) : Prop where
  fits : v.Fits
  ordered : v.Ordered
  depth : v.depth ≤ levels

theorem bind_ok {α β : Type} {x : Except Fault α} {f : α → Except Fault β} {b : β}
    (h : x >>= f = .ok b) : ∃ a, x = .ok a ∧ f a = .ok b := by
  cases x with
  | error e => cases h
  | ok a => exact ⟨a, rfl, h⟩

theorem then_ok {α β : Type} {x : Except Fault α} {f : α → Except Fault β} {a : α} {b : β}
    (h : x = .ok a) (rest : f a = .ok b) : x >>= f = .ok b := by
  rw [h]
  exact rest

section Lists

variable {levels : Nat} (each : ∀ {d v}, Decoder.any levels d = .ok v → d.Sound → v.Read levels)
include each

theorem any_items {ds : List Doc} {vs : List Value}
    (read : ds.mapM (Decoder.any levels) = .ok vs) (sound : Doc.SoundItems ds) :
    Value.FitsItems vs ∧ Value.OrderedItems vs ∧ Value.depthItems vs ≤ levels := by
  induction ds generalizing vs with
  | nil =>
    obtain rfl : [] = vs := Except.ok.inj read
    exact ⟨trivial, trivial, Nat.zero_le _⟩
  | cons d ds ih =>
    rw [List.mapM_cons] at read
    obtain ⟨v, first, read⟩ := bind_ok read
    obtain ⟨vs', rest, read⟩ := bind_ok read
    obtain rfl : v :: vs' = vs := Except.ok.inj read
    obtain ⟨fits, ordered, depth⟩ := each first sound.1
    obtain ⟨fits', ordered', depth'⟩ := ih rest sound.2
    refine ⟨⟨fits, fits'⟩, ⟨ordered, ordered'⟩, ?_⟩
    rw [Value.depthItems]
    omega

/-- What holds of the members that have been read, in order. -/
structure MembersRead (levels : Nat) (es : Entries Value) : Prop where
  sorted : Entries.Sorted es
  each : ∀ e ∈ es, e.2.Read levels

theorem any_members {ds : List (Except Fault String × Doc)} {es es' : Entries Value}
    (read : ds.foldlM (anyMember levels) es = .ok es') (sound : Doc.SoundMembers ds)
    (before : MembersRead levels es) : MembersRead levels es' := by
  induction ds generalizing es with
  | nil =>
    obtain rfl : es = es' := Except.ok.inj read
    exact before
  | cons m ds ih =>
    obtain ⟨key, d⟩ := m
    rw [List.foldlM_cons] at read
    obtain ⟨es₁, first, read⟩ := bind_ok read
    obtain ⟨k, rfl, first⟩ := bind_ok first
    obtain ⟨v, value, first⟩ := bind_ok first
    obtain rfl : Entries.insert k v es = es₁ := Except.ok.inj first
    refine ih read sound.2 ⟨before.sorted.insert k v, fun e he => ?_⟩
    rcases Entries.mem_insert he with rfl | he
    · exact each value sound.1
    · exact before.each e he

end Lists

theorem MembersRead.object {levels : Nat} {es : Entries Value} (read : MembersRead levels es) :
    (Value.object es).Read (levels + 1) := by
  obtain ⟨sorted, each⟩ := read
  have inside : Value.FitsMembers es ∧ Value.OrderedMembers es ∧
      Value.depthMembers es ≤ levels := by
    clear sorted
    induction es with
    | nil => exact ⟨trivial, trivial, Nat.zero_le _⟩
    | cons e es ih =>
      obtain ⟨fits, ordered, depth⟩ := each e List.mem_cons_self
      obtain ⟨fits', ordered', depth'⟩ := ih fun e' he' => each e' (List.mem_cons_of_mem _ he')
      refine ⟨⟨fits, fits'⟩, ⟨ordered, ordered'⟩, ?_⟩
      rw [Value.depthMembers]
      omega
  refine ⟨inside.1, ⟨sorted, inside.2.1⟩, ?_⟩
  rw [Value.depth]
  omega

/-- Every value that is read from a document with numbers of JSON is one of JSON, has its members in
order and keeps to the containers that are allowed. -/
theorem any_read : ∀ {levels : Nat} {d : Doc} {v : Value}, Decoder.any levels d = .ok v →
    d.Sound → v.Read levels
  | levels, .null, v, read, _ => by
    rw [Decoder.any] at read
    cases read
    exact ⟨trivial, trivial, Nat.zero_le _⟩
  | levels, .bool b, v, read, _ => by
    rw [Decoder.any] at read
    cases read
    exact ⟨trivial, trivial, Nat.zero_le _⟩
  | levels, .number n, v, read, sound => by
    rw [Decoder.any] at read
    cases n with
    | error f => cases read
    | ok x =>
      cases read
      exact ⟨sound x rfl, trivial, Nat.zero_le _⟩
  | levels, .string s, v, read, _ => by
    rw [Decoder.any] at read
    cases s with
    | error f => cases read
    | ok s =>
      cases read
      exact ⟨trivial, trivial, Nat.zero_le _⟩
  | levels, .broken f g, v, read, _ => by
    rw [Decoder.any] at read
    cases read
  | 0, .array items gap, v, read, _ => by cases read
  | 0, .object members gap, v, read, _ => by cases read
  | levels + 1, .array items gap, v, read, sound => by
    rw [any_array] at read
    obtain ⟨vs, items, read⟩ := bind_ok read
    obtain ⟨_, -, read⟩ := bind_ok read
    obtain rfl : Value.array vs = v := Except.ok.inj read
    obtain ⟨fits, ordered, depth⟩ := any_items any_read items sound
    exact ⟨fits, ordered, by rw [Value.depth]; omega⟩
  | levels + 1, .object members gap, v, read, sound => by
    rw [any_object] at read
    obtain ⟨es, members, read⟩ := bind_ok read
    obtain ⟨_, -, read⟩ := bind_ok read
    obtain rfl : Value.object es = v := Except.ok.inj read
    exact (any_members any_read members sound ⟨.nil, by simp⟩).object

/-! ## Scanned documents -/

theorem stringDoc_sound (cs : List Char) : (stringDoc cs).1.Sound := by
  unfold stringDoc
  dsimp only
  split <;> trivial

theorem numberDoc_sound (cs : List Char) : (numberDoc cs).1.Sound := by
  unfold numberDoc
  split
  · exact fun x read => Numeral.read_fits read
  · trivial

theorem wordDoc_sound {d : Doc} (sound : d.Sound) (word cs : List Char) :
    (wordDoc d word cs).1.Sound := by
  unfold wordDoc
  split
  · exact sound
  · trivial

/-- The scan reads numbers of JSON only. Its parts call one another with less fuel, so they are
taken together. -/
theorem scan_sound (fuel : Nat) :
    (∀ cs, (scanValue fuel cs).1.Sound) ∧
    (∀ first cs, Doc.SoundItems (scanItems fuel first cs).1.1) ∧
    (∀ cs, Doc.SoundItems (scanItem fuel cs).1.1) ∧
    (∀ first cs, Doc.SoundMembers (scanMembers fuel first cs).1.1) ∧
    (∀ cs, Doc.SoundMembers (scanMember fuel cs).1.1) := by
  induction fuel with
  | zero => exact ⟨fun _ => trivial, fun _ _ => trivial, fun _ => trivial, fun _ _ => trivial,
      fun _ => trivial⟩
  | succ fuel ih =>
    obtain ⟨value, items, item, members, member⟩ := ih
    refine ⟨fun cs => ?_, fun first cs => ?_, fun cs => ?_, fun first cs => ?_, fun cs => ?_⟩
    · rw [scanValue]
      split
      · trivial
      · split
        · exact stringDoc_sound _
        split
        · exact items true _
        split
        · exact members true _
        split
        · exact @wordDoc_sound .null trivial _ _
        split
        · exact @wordDoc_sound (.bool true) trivial _ _
        split
        · exact @wordDoc_sound (.bool false) trivial _ _
        split
        · exact numberDoc_sound _
        · trivial
    · rw [scanItems]
      split
      · trivial
      · split
        · trivial
        split
        · exact item _
        split
        · split
          · exact ⟨trivial, trivial⟩
          · split
            · exact ⟨trivial, trivial⟩
            · exact item _
        · trivial
    · rw [scanItem]
      have first := value cs
      generalize scanValue fuel cs = scanned at first
      obtain ⟨d, _ | rest⟩ := scanned
      · exact ⟨first, trivial⟩
      · exact ⟨first, items false rest⟩
    · rw [scanMembers]
      split
      · trivial
      · split
        · trivial
        split
        · split
          · exact member _
          · trivial
        split
        · split
          · trivial
          · split
            · exact member _
            · trivial
        · trivial
    · rw [scanMember]
      dsimp only
      split
      · exact ⟨trivial, trivial⟩
      · split
        · exact ⟨trivial, trivial⟩
        next rest _ =>
          split
          · have first := value rest
            generalize scanValue fuel rest = scanned at first
            obtain ⟨d, _ | rest⟩ := scanned
            · exact ⟨first, trivial⟩
            · exact ⟨first, members false rest⟩
          · exact ⟨trivial, trivial⟩

theorem ofChars_sound (cs : List Char) : (Document.ofChars cs).root.Sound := by
  have sound := (scan_sound (3 * cs.length + 3)).1 cs
  unfold Document.ofChars
  generalize scanValue (3 * cs.length + 3) cs = scanned at sound
  obtain ⟨d, _ | rest⟩ := scanned <;> exact sound

theorem text_ok {α : Type} {d : Decoder α} {s : String} {a : α} (read : d.text s = .ok a) :
    d textLevels (Document.ofChars s.toList).root = .ok a ∧
      (Document.ofChars s.toList).trailing = false := by
  unfold Decoder.text at read
  obtain ⟨a', value, ending⟩ := bind_ok read
  split at ending
  · cases ending
  next clean =>
    obtain rfl : a' = a := Except.ok.inj ending
    exact ⟨value, by simpa using clean⟩

theorem text_read {s : String} {v : Value} (read : Decoder.any.text s = .ok v) :
    v.Read textLevels :=
  any_read (text_ok read).1 (ofChars_sound _)

theorem text_of_document {α : Type} (d : Decoder α) {s : String} {root : Doc}
    (document : Document.ofChars s.toList = ⟨root, false⟩) : d.text s = d textLevels root := by
  unfold Decoder.text
  rw [document]
  dsimp only
  cases d textLevels root <;> rfl

theorem text_render {α : Type} (d : Decoder α) {v : Value} (fits : v.Fits) (layout : Layout) :
    d.text (v.render layout) = d textLevels (.ofValue v) := by
  apply text_of_document
  rw [Value.render, String.toList_ofList, Document.ofChars_write fits]

end BlockStage.Json
