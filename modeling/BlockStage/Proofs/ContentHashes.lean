import BlockStage.Proofs.Json.Agreement
import BlockStage.Proofs.SavedProjects

/-! # What the digest of a workspace tells apart

Different values have different compact texts, so equal digests of different workspaces come from
two messages that SHA-256 does not tell apart. Unless there is such a collision, a project whose
workspace has been replaced is refused for its digest; a project whose text has been written again
is not.
-/
namespace BlockStage

open BlockStage.Json (Value Fault Decoder Doc Document Layout Agrees textLevels bind_ok
  exists_swapped)

/-! ## Texts of values -/

namespace Json

mutual

theorem Doc.ofValue_injective : ∀ {v w : Value}, Doc.ofValue v = .ofValue w → v = w
  | .null, w, same => by cases w <;> cases same; rfl
  | .bool b, w, same => by cases w <;> cases same; rfl
  | .number n, w, same => by cases w <;> cases same; rfl
  | .string s, w, same => by cases w <;> cases same; rfl
  | .array vs, w, same => by
    cases w with
    | array ws => exact congrArg Value.array (Doc.ofItems_injective (Doc.array.inj same).1)
    | _ => cases same
  | .object ms, w, same => by
    cases w with
    | object ns => exact congrArg Value.object (Doc.ofMembers_injective (Doc.object.inj same).1)
    | _ => cases same

theorem Doc.ofItems_injective : ∀ {vs ws : List Value}, Doc.ofItems vs = Doc.ofItems ws → vs = ws
  | [], [], _ => rfl
  | [], _ :: _, same => by cases same
  | _ :: _, [], same => by cases same
  | v :: vs, w :: ws, same => by
    obtain ⟨first, rest⟩ := List.cons.inj same
    rw [Doc.ofValue_injective first, Doc.ofItems_injective rest]

theorem Doc.ofMembers_injective : ∀ {ms ns : List (String × Value)},
    Doc.ofMembers ms = Doc.ofMembers ns → ms = ns
  | [], [], _ => rfl
  | [], _ :: _, same => by cases same
  | _ :: _, [], same => by cases same
  | (k, v) :: ms, (k', w) :: ns, same => by
    obtain ⟨first, rest⟩ := List.cons.inj same
    obtain ⟨key, value⟩ := Prod.mk.inj first
    rw [Except.ok.inj key, Doc.ofValue_injective value, Doc.ofMembers_injective rest]

end

theorem render_injective {v w : Value} (fits : v.Fits) (fits' : w.Fits) {layout : Layout}
    (same : v.render layout = w.render layout) : v = w := by
  have read := Document.ofChars_write fits layout
  rw [String.ofList_injective same, Document.ofChars_write fits' layout] at read
  exact (Doc.ofValue_injective (Document.mk.inj read).1).symm

/-- A text of the value with its members in any order, and with any white space. -/
def IsTextOf (s : String) (v : Value) : Prop :=
  ∃ u, v.Reorders u ∧ Document.ofChars s.toList = ⟨.ofValue u, false⟩

theorem isTextOf_render {v u : Value} (reorders : v.Reorders u) (fits : u.Fits) (layout : Layout) :
    IsTextOf (u.render layout) v := by
  refine ⟨u, reorders, ?_⟩
  rw [Value.render, String.toList_ofList, Document.ofChars_write fits]

end Json

/-! ## Digests -/

namespace Text

theorem hexNumber?_hexDigits (width n : Nat) :
    hexNumber? (hexDigits width n) = some (n % 16 ^ width) := by
  induction width generalizing n with
  | zero => simp [hexDigits, hexNumber?, Nat.mod_one]
  | succ width ih =>
    have digit := (Json.hexChar_spec (n % 16) (Nat.mod_lt n (by decide))).1
    have front := ih (n / 16)
    unfold hexNumber? at front ⊢
    rw [hexDigits, List.foldlM_append, front, Nat.pow_succ', Nat.mod_mul]
    simp [digit, Nat.add_comm]

theorem hexDigits_length (width n : Nat) : (hexDigits width n).length = width := by
  induction width generalizing n with
  | zero => rfl
  | succ width ih => rw [hexDigits, List.length_append, ih]; rfl

end Text

namespace Digest

/-- Two different messages with the same digest. -/
structure Collision (a b : List UInt8) : Prop where
  differ : a ≠ b
  same : Sha256.hash a = Sha256.hash b

theorem hexDigits_injective {w w' : UInt32}
    (same : Text.hexDigits 8 w.toNat = Text.hexDigits 8 w'.toNat) : w = w' := by
  have number := Text.hexNumber?_hexDigits 8 w.toNat
  have small (w : UInt32) : w.toNat < 16 ^ 8 := w.toNat_lt
  rw [same, Text.hexNumber?_hexDigits, Nat.mod_eq_of_lt (small w), Nat.mod_eq_of_lt (small w')]
    at number
  exact UInt32.toNat_inj.mp (Option.some.inj number).symm

theorem flatMap_hexDigits_injective {ws ws' : List UInt32} (length : ws.length = ws'.length)
    (same : (ws.flatMap fun w => Text.hexDigits 8 w.toNat) =
      ws'.flatMap fun w => Text.hexDigits 8 w.toNat) : ws = ws' := by
  induction ws generalizing ws' with
  | nil => exact (List.length_eq_zero_iff.mp length.symm).symm
  | cons w ws ih =>
    cases ws' with
    | nil => cases length
    | cons w' ws' =>
      rw [List.flatMap_cons, List.flatMap_cons] at same
      obtain ⟨first, rest⟩ := List.append_inj same
        (by rw [Text.hexDigits_length, Text.hexDigits_length])
      rw [hexDigits_injective first, ih (Nat.succ.inj length) rest]

theorem Sha256.hex_injective {s t : Sha256} (same : s.hex = t.hex) : s = t := by
  have words : s.toWords = t.toWords :=
    flatMap_hexDigits_injective rfl (String.ofList_injective same)
  cases s
  cases t
  simpa [toWords] using words

end Digest

def hashedBytes (v : Value) : List UInt8 := (v.render .compact).toUTF8.data.toList

theorem hashedBytes_injective {v w : Value} (fits : v.Fits) (fits' : w.Fits)
    (same : hashedBytes v = hashedBytes w) : v = w := by
  have bytes := ByteArray.ext (Array.toList_inj.mp same)
  exact Json.render_injective fits fits' (String.toByteArray_inj.mp bytes)

/-- Different values have different digests, or SHA-256 does not tell their texts apart. -/
theorem collision_of_contentHash {v w : Value} (fits : v.Fits) (fits' : w.Fits) (differ : v ≠ w)
    (same : contentHash v = contentHash w) : Digest.Collision (hashedBytes v) (hashedBytes w) where
  differ bytes := differ (hashedBytes_injective fits fits' bytes)
  same := Digest.Sha256.hex_injective same

/-! ## Envelopes -/

namespace Json

variable {δ : Type} {fields : List String}
  {put : String → (levels : Nat) → Doc → δ → Except Fault δ}
  {blank draft : δ} {P : δ → Entries Value → Prop} {n : Nat} {doc : Doc} {es : Entries Value}

theorem recordMember_ok {s s' : δ × List String} {m : Except Fault String × Doc}
    (read : recordMember fields put n s m = .ok s') : ∃ key, m.1 = .ok key ∧
      (key ∈ fields ∧ put key n m.2 s.1 = .ok s'.1 ∨ key ∉ fields ∧ s'.1 = s.1) := by
  obtain ⟨key, hkey, read⟩ := bind_ok read
  refine ⟨key, hkey, ?_⟩
  split at read
  next known =>
    split at read
    · cases read
    · obtain ⟨draft, value, read⟩ := bind_ok read
      obtain rfl := Except.ok.inj read
      exact .inl ⟨by simpa using known, value⟩
  next unknown =>
    obtain ⟨_, _, read⟩ := bind_ok read
    obtain rfl := Except.ok.inj read
    exact .inr ⟨by simpa using unknown, rfl⟩

/-- A record that is read from an object, and the object as any value, go through the same members:
what one member keeps, all of them keep. -/
theorem record_beside_any (start : P blank [])
    (known : ∀ key ∈ fields, ∀ {n doc draft draft' v es}, P draft es →
      put key n doc draft = .ok draft' → Decoder.any n doc = .ok v → P draft' (es.insert key v))
    (other : ∀ key ∉ fields, ∀ {draft v es}, P draft es → P draft (es.insert key v))
    (read : Decoder.record fields put blank n doc = .ok draft)
    (whole : Decoder.any n doc = .ok (.object es)) : P draft es := by
  -- on the members that are left, for a draft and entries that are begun
  have fold {n : Nat} (members : List (Except Fault String × Doc)) : ∀ {s s' : δ × List String}
      {acc es : Entries Value}, P s.1 acc → members.foldlM (recordMember fields put n) s = .ok s' →
      members.foldlM (anyMember n) acc = .ok es → P s'.1 es := by
    induction members with
    | nil =>
      intro s s' acc es holds read whole
      obtain rfl : s = s' := Except.ok.inj read
      obtain rfl : acc = es := Except.ok.inj whole
      exact holds
    | cons m members ih =>
      intro s s' acc es holds read whole
      obtain ⟨t, first, read⟩ := bind_ok read
      obtain ⟨acc', first', whole⟩ := bind_ok whole
      refine ih ?_ read whole
      obtain ⟨key, hkey, step⟩ := recordMember_ok first
      obtain ⟨key', hkey', first'⟩ := bind_ok first'
      obtain rfl : key = key' := Except.ok.inj (hkey.symm.trans hkey')
      obtain ⟨v, value, first'⟩ := bind_ok first'
      obtain rfl : Entries.insert key v acc = acc' := Except.ok.inj first'
      rcases step with ⟨mem, put⟩ | ⟨mem, kept⟩
      · exact known key mem holds put value
      · rw [kept]
        exact other key mem holds
  cases doc with
  | object members gap =>
    cases n with
    | zero => cases read
    | succ n =>
      rw [any_object] at whole
      obtain ⟨es', taken, whole⟩ := bind_ok whole
      obtain ⟨_, _, whole⟩ := bind_ok whole
      obtain rfl : es' = es := Value.object.inj (Except.ok.inj whole)
      rw [record_members] at read
      obtain ⟨last, put, read⟩ := bind_ok read
      obtain ⟨_, _, read⟩ := bind_ok read
      obtain rfl : last.1 = draft := Except.ok.inj read
      exact fold members start put taken
  | array items gap =>
    cases n with
    | zero => cases read
    | succ n =>
      rw [any_array] at whole
      obtain ⟨_, _, whole⟩ := bind_ok whole
      obtain ⟨_, _, whole⟩ := bind_ok whole
      cases whole
  | _ => cases n <;> cases read

theorem string_beside_any {s : String} {v : Value} (read : Decoder.string n doc = .ok s)
    (whole : Decoder.any n doc = .ok v) : v = .string s := by
  cases doc with
  | string t =>
    rw [Decoder.string] at read
    rw [Decoder.any, read] at whole
    exact (Except.ok.inj whole).symm
  | null => cases read
  | bool b => cases read
  | number x => cases x <;> cases read
  | array items gap => cases read
  | object members gap => cases read
  | broken f g => cases read

end Json

namespace Envelope

/-- The draft holds what the members are under the keys of an envelope. -/
structure Draft.Matches (draft : Draft) (es : Entries Value) : Prop where
  key : draft.key.map Value.string = Entries.find? "key" es
  contentHash : draft.contentHash.map Value.string = Entries.find? "content_hash" es
  workspace : draft.workspace = Entries.find? "workspace" es

namespace Draft.Matches

variable {draft : Draft} {es : Entries Value} (h : draft.Matches es)
include h

theorem insert_other {key : String} (key' : key ≠ "key") (hash' : key ≠ "content_hash")
    (workspace' : key ≠ "workspace") (v : Value) : draft.Matches (es.insert key v) where
  key := by rw [Entries.find?_insert_ne (Ne.symm key'), h.key]
  contentHash := by rw [Entries.find?_insert_ne (Ne.symm hash'), h.contentHash]
  workspace := by rw [Entries.find?_insert_ne (Ne.symm workspace'), h.workspace]

theorem insert_key (key : String) :
    Matches { draft with key := some key } (es.insert "key" (.string key)) where
  key := (Entries.find?_insert_self _ _ es).symm
  contentHash := by rw [Entries.find?_insert_ne (by decide), h.contentHash]
  workspace := by rw [Entries.find?_insert_ne (by decide), h.workspace]

theorem insert_savedAt (savedAt : Timestamp) (v : Value) :
    Matches { draft with savedAt := some savedAt } (es.insert "saved_at" v) where
  key := by rw [Entries.find?_insert_ne (by decide), h.key]
  contentHash := by rw [Entries.find?_insert_ne (by decide), h.contentHash]
  workspace := by rw [Entries.find?_insert_ne (by decide), h.workspace]

theorem insert_contentHash (hash : String) :
    Matches { draft with contentHash := some hash } (es.insert "content_hash" (.string hash)) where
  key := by rw [Entries.find?_insert_ne (by decide), h.key]
  contentHash := (Entries.find?_insert_self _ _ es).symm
  workspace := by rw [Entries.find?_insert_ne (by decide), h.workspace]

theorem insert_workspace (workspace : Value) :
    Matches { draft with workspace := some workspace } (es.insert "workspace" workspace) where
  key := by rw [Entries.find?_insert_ne (by decide), h.key]
  contentHash := by rw [Entries.find?_insert_ne (by decide), h.contentHash]
  workspace := (Entries.find?_insert_self _ _ es).symm

end Draft.Matches

theorem required_ok {α : Type} {o : Option α} {a : α} (there : Decoder.required o = .ok a) :
    o = some a := by
  cases o with
  | none => cases there
  | some b => exact congrArg some (Except.ok.inj there)

theorem decoder_beside_any {n : Nat} {doc : Doc} {e : Envelope} {es : Entries Value}
    (read : decoder n doc = .ok e) (whole : Decoder.any n doc = .ok (.object es)) :
    Entries.find? "key" es = some (.string e.key) ∧
    Entries.find? "content_hash" es = some (.string e.contentHash) ∧
    Entries.find? "workspace" es = some e.workspace := by
  obtain ⟨draft, fields, read⟩ := bind_ok read
  obtain ⟨key, hkey, read⟩ := bind_ok read
  obtain ⟨savedAt, _, read⟩ := bind_ok read
  obtain ⟨hash, hhash, read⟩ := bind_ok read
  obtain ⟨workspace, hworkspace, read⟩ := bind_ok read
  obtain rfl := Except.ok.inj read
  have holds : draft.Matches es := by
    refine Json.record_beside_any (P := Draft.Matches) ⟨rfl, rfl, rfl⟩ ?_ ?_ fields whole
    · intro key known n doc draft draft' v es before put value
      simp only [List.mem_cons, List.not_mem_nil, or_false] at known
      rcases known with rfl | rfl | rfl | rfl
      · obtain ⟨key, text, put⟩ := bind_ok put
        obtain rfl := Except.ok.inj put
        obtain rfl := Json.string_beside_any text value
        exact before.insert_key key
      · obtain ⟨savedAt, _, put⟩ := bind_ok put
        obtain rfl := Except.ok.inj put
        exact before.insert_savedAt savedAt v
      · obtain ⟨hash, text, put⟩ := bind_ok put
        obtain rfl := Except.ok.inj put
        obtain rfl := Json.string_beside_any text value
        exact before.insert_contentHash hash
      · obtain ⟨workspace, read, put⟩ := bind_ok put
        obtain rfl := Except.ok.inj put
        obtain rfl : workspace = v := Except.ok.inj (read.symm.trans value)
        exact before.insert_workspace workspace
    · intro key unknown draft v es before
      simp only [List.mem_cons, List.not_mem_nil, or_false, not_or] at unknown
      exact before.insert_other unknown.1 unknown.2.2.1 unknown.2.2.2 v
  refine ⟨?_, ?_, ?_⟩
  · rw [← holds.key, required_ok hkey]
    rfl
  · rw [← holds.contentHash, required_ok hhash]
    rfl
  · rw [← holds.workspace, required_ok hworkspace]

theorem decoder_agrees (k : Nat) : Agrees (k + 1) decoder decoder := by
  refine Agrees.bind (.record ?_ ?_ _) _
  · intro key draft
    constructor
    intro n m v w a low same
    split
    · exact ((Agrees.string k).bind _).take low same
    · exact (((Agrees.string k).bind _).bind _).take low same
    · exact ((Agrees.string k).bind _).take low same
    · exact ((Agrees.any k).bind _).take low same
  · intro key known key' known' differ n doc doc' a b c first second
    simp only [List.mem_cons, List.not_mem_nil, or_false] at known known'
    rcases known with rfl | rfl | rfl | rfl <;> rcases known' with rfl | rfl | rfl | rfl
    all_goals try exact absurd rfl differ
    all_goals exact exists_swapped first second (by rintro u v ⟨⟩ ⟨⟩; exact ⟨_, rfl, rfl⟩)

/-- The members of an envelope in the order of their keys. -/
def members (e : Envelope) : Entries Value :=
  [("content_hash", .string e.contentHash), ("key", .string e.key),
    ("saved_at", .string e.savedAt.display), ("workspace", e.workspace)]

theorem any_toJson {e : Envelope} (ordered : e.workspace.Ordered) (levels : Nat) :
    Decoder.any (levels + 1) (.ofValue e.toJson) =
      if e.workspace.depth ≤ levels then .ok (.object e.members) else .error .malformed := by
  have workspace := Json.any_ofValue e.workspace ordered levels
  have text (s : String) : Decoder.any levels (.string (.ok s)) = .ok (.string s) := by
    rw [Decoder.any]
    rfl
  have sorted : Entries.insert "workspace" e.workspace (Entries.insert "content_hash"
      (.string e.contentHash) (Entries.insert "saved_at" (.string e.savedAt.display)
        (Entries.insert "key" (.string e.key) []))) = e.members := by
    simp +decide only [Entries.insert, members, if_true, if_false]
  rw [toJson, Doc.ofValue, Json.any_object]
  by_cases shallow : e.workspace.depth ≤ levels
  · rw [if_pos shallow] at workspace ⊢
    simp only [Doc.ofMembers, Doc.ofValue, List.foldlM, Json.anyMember, text, workspace, ← sorted]
    rfl
  · rw [if_neg shallow] at workspace ⊢
    simp only [Doc.ofMembers, Doc.ofValue, List.foldlM, Json.anyMember, text, workspace]
    rfl

section ProjectFiles

variable {date : Timestamp} {v : Value} (fits : v.Fits) (ordered : v.Ordered)
include fits ordered

theorem any_fileText : Decoder.any.text (enclose date v).fileText =
    if v.depth < textLevels then .ok (.object (enclose date v).members) else .error .malformed := by
  rw [fileText, Json.text_render _ (fits_toJson fits)]
  have read := any_toJson (e := enclose date v) ordered 126
  have shallow : (enclose date v).workspace.depth ≤ 126 ↔ v.depth < textLevels :=
    Nat.lt_succ_iff.symm
  simp only [shallow] at read
  exact read

theorem openText_same {s : String} {x : Value}
    (file : Decoder.any.text (enclose date v).fileText = .ok x)
    (parsed : Decoder.any.text s = .ok x) :
    openText s = .ok v ∨ ∃ f, openText s = .error (.json f) := by
  rw [any_fileText fits ordered] at file
  split at file
  · obtain rfl := Except.ok.inj file
    cases read : ofText s with
    | error f => exact .inr ⟨f, by rw [openText, read]⟩
    | ok e =>
      obtain ⟨key, hash, workspace⟩ :=
        decoder_beside_any (Json.text_ok read).1 (Json.text_ok parsed).1
      have key : currentKey = e.key := Value.string.inj (Option.some.inj key)
      have hash : BlockStage.contentHash v = e.contentHash :=
        Value.string.inj (Option.some.inj hash)
      have workspace : v = e.workspace := Option.some.inj workspace
      left
      simp [openText, read, extract, ← key, ← hash, ← workspace]
  · cases file

/-- A project file that is written again with its members in another order is opened as before. -/
theorem openText_rewritten (valid : date.isValid = true) (shallow : v.depth < textLevels)
    {s : String} (rewritten : Json.IsTextOf s (enclose date v).toJson) :
    Decoder.any.text s = Decoder.any.text (enclose date v).fileText ∧ openText s = .ok v := by
  obtain ⟨u, reorders, document⟩ := rewritten
  have low : v.depth ≤ 126 := Nat.le_of_lt_succ shallow
  have recasts : (enclose date v).toJson.Recasts textLevels u := by
    refine ⟨reorders, ?_, ?_⟩
    · simp [toJson, enclose, Doc.ofValue, Doc.ofMembers, Doc.Single, Doc.SingleMembers,
        ordered.single]
    · simpa [toJson, enclose, Value.depth, Value.depthMembers] using shallow
  constructor
  · rw [Json.text_of_document _ document, any_fileText fits ordered, if_pos shallow]
    refine (Agrees.any _).take (Nat.lt_succ_self _) recasts (n := textLevels) ?_
    exact (any_toJson (e := enclose date v) ordered 126).trans (if_pos low)
  · have read : ofText s = .ok (enclose date v) := by
      rw [ofText, Json.text_of_document _ document]
      refine (decoder_agrees _).take (Nat.lt_succ_self _) recasts (n := textLevels) ?_
      exact (decoder_toJson (e := enclose date v) valid ordered 126).trans (if_pos low)
    rw [openText, read]
    exact extract_enclose date v

end ProjectFiles

end Envelope

/-! ## Different workspaces -/

/-- A digest separates the workspaces of JSON as far as SHA-256 separates their texts: the hashed
texts are different, and a project whose workspace has been replaced is refused for its digest. A
text that is parsed to what the project file is parsed to is never refused for its digest, and one
with its members in another order or with other white space is opened as the project file is. -/
theorem content_hash_separates {v w : Value} {date : Timestamp} (fits : v.Fits) (fits' : w.Fits)
    (ordered : v.Ordered) (valid : date.isValid = true) :
    (v.render .compact = w.render .compact ↔ v = w) ∧
    (v ≠ w → contentHash v = contentHash w →
      Digest.Collision (hashedBytes v) (hashedBytes w)) ∧
    (v ≠ w → { Envelope.enclose date v with workspace := w }.extract =
        .error (.hashMismatch (contentHash v) (contentHash w)) ∨
      Digest.Collision (hashedBytes v) (hashedBytes w)) ∧
    (∀ s x, Decoder.any.text (Envelope.enclose date v).fileText = .ok x →
      Decoder.any.text s = .ok x →
        Envelope.openText s = .ok v ∨ ∃ f, Envelope.openText s = .error (.json f)) ∧
    (∀ s, Json.IsTextOf s (Envelope.enclose date v).toJson → v.depth < textLevels →
      Decoder.any.text s = Decoder.any.text (Envelope.enclose date v).fileText ∧
        Envelope.openText s = .ok v) := by
  refine ⟨⟨Json.render_injective fits fits', congrArg _⟩, collision_of_contentHash fits fits', ?_,
    fun s x => Envelope.openText_same fits ordered, fun s rewritten shallow =>
      Envelope.openText_rewritten fits ordered valid shallow rewritten⟩
  intro differ
  by_cases same : contentHash v = contentHash w
  · exact .inr (collision_of_contentHash fits fits' differ same)
  · left
    simp [Envelope.extract, Envelope.enclose, same]

/-- A number and its digits as a string; the project of the number with its members the other way
round and without white space. -/
theorem content_hash_separates_digits :
    let v : Value := .object [("a", .number (.int 1))]
    let w : Value := .object [("a", .string "1")]
    let date : Timestamp := .ofUnix 0 0
    let written : Value := .object [("workspace", v), ("content_hash", .string (contentHash v)),
      ("saved_at", .string date.display), ("key", .string Envelope.currentKey)]
    v ≠ w ∧ v.render .compact ≠ w.render .compact ∧
    ({ Envelope.enclose date v with workspace := w }.extract =
        .error (.hashMismatch (contentHash v) (contentHash w)) ∨
      Digest.Collision (hashedBytes v) (hashedBytes w)) ∧
    Envelope.openText (written.render .compact) = .ok v := by
  intro v w date written
  have fits : v.Fits := by
    simp [v, Value.Fits, Value.FitsMembers, Json.Number.Fits, Word.limit64]
  have fits' : w.Fits := by simp [w, Value.Fits, Value.FitsMembers]
  have ordered : v.Ordered := by
    simp [v, Value.Ordered, Value.OrderedMembers, Entries.Sorted]
  have valid : date.isValid = true := by decide
  have differ : v ≠ w := by simp [v, w]
  have text : Json.IsTextOf (written.render .compact) (Envelope.enclose date v).toJson := by
    refine Json.isTextOf_render (u := written) ?_ ⟨fits, trivial, trivial, trivial, trivial⟩ _
    rw [Envelope.toJson, Value.Reorders]
    exact ⟨_, _, rfl, Value.ReordersMembers.refl _, (List.reverse_perm _).symm⟩
  obtain ⟨texts, -, replaced, -, rewritten⟩ :=
    content_hash_separates fits fits' ordered valid
  refine ⟨differ, fun same => differ (texts.mp same), replaced differ, ?_⟩
  exact (rewritten _ text (by decide)).2

end BlockStage
