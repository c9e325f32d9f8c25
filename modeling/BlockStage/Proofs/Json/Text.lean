import BlockStage.Proofs.Json.Numbers

/-! # JSON texts are read back

The scan of a written value gives the document of the value and stops where the text of the value
does, in either layout.
-/
namespace BlockStage.Json

open BlockStage.Text (isDigit hexChar hexValue? hexDigits)

/-! ## Strings -/

theorem hexChar_spec : ∀ d < 16, hexValue? (hexChar d) = some d ∧ (hexChar d).utf8Size = 1 := by
  decide

theorem scanString_digit {d left value : Nat} (h : d < 16) (more : ¬ left ≤ 1) (cs : List Char) :
    scanString (.hex left value) (hexChar d :: cs) =
      scanString (.hex (left - 1) (16 * value + d)) cs := by
  rw [scanString, (hexChar_spec d h).1]
  exact if_neg more

theorem scanString_lastDigit {d value : Nat} (h : d < 16) (cs : List Char) :
    scanString (.hex 1 value) (hexChar d :: cs) =
      (.ofUnit (16 * value + d) :: (scanString .plain cs).1, (scanString .plain cs).2) := by
  rw [scanString, (hexChar_spec d h).1]
  exact if_pos (Nat.le_refl 1)

theorem scanString_control {c : Char} (control : c.toNat < 0x20) (cs : List Char) :
    scanString .escape ('u' :: (hexDigits 4 c.toNat ++ cs)) =
      (.char c :: (scanString .plain cs).1, (scanString .plain cs).2) := by
  have small (n : Nat) : n % 16 < 16 := Nat.mod_lt n (by decide)
  have unit : Piece.ofUnit c.toNat = .char c := by
    unfold Piece.ofUnit
    rw [if_neg (by simp; omega), if_neg (by simp; omega), Char.ofNat_toNat]
  generalize c.toNat = n at control unit
  have digits : hexDigits 4 n ++ cs = hexChar (n / 16 / 16 / 16 % 16) ::
      hexChar (n / 16 / 16 % 16) :: hexChar (n / 16 % 16) :: hexChar (n % 16) :: cs := rfl
  have enough : fourBytesLeft (hexDigits 4 n ++ cs) = true := by
    rw [digits]
    simp [fourBytesLeft, (hexChar_spec _ (small _)).2]
  have joined :
      16 * (16 * (16 * (16 * 0 + n / 16 / 16 / 16 % 16) + n / 16 / 16 % 16) + n / 16 % 16) +
        n % 16 = n := by omega
  rw [scanString, if_pos rfl, if_pos enough, digits, scanString_digit (small _) (by decide),
    scanString_digit (small _) (by decide), scanString_digit (small _) (by decide),
    scanString_lastDigit (small _), joined, unit]

theorem scanString_letter {c d : Char} (letter : c ≠ 'u') (h : escaped? c = some d)
    (cs : List Char) : scanString .plain ('\\' :: c :: cs) =
      (.char d :: (scanString .plain cs).1, (scanString .plain cs).2) := by
  rw [scanString, if_neg (by decide), if_pos rfl, scanString, if_neg letter, h]

theorem scanString_escape (c : Char) (cs : List Char) :
    scanString .plain (escape c ++ cs) =
      (.char c :: (scanString .plain cs).1, (scanString .plain cs).2) := by
  unfold escape
  split
  next same =>
    subst same
    exact scanString_letter (by decide) rfl cs
  next notQuote =>
  split
  next same =>
    subst same
    exact scanString_letter (by decide) rfl cs
  next notBackslash =>
  split
  next same =>
    subst same
    exact scanString_letter (by decide) rfl cs
  split
  next same =>
    subst same
    exact scanString_letter (by decide) rfl cs
  split
  next same =>
    subst same
    exact scanString_letter (by decide) rfl cs
  split
  next same =>
    subst same
    exact scanString_letter (by decide) rfl cs
  split
  next same =>
    subst same
    exact scanString_letter (by decide) rfl cs
  split
  next control =>
    change scanString .plain ('\\' :: 'u' :: (hexDigits 4 c.toNat ++ cs)) = _
    rw [scanString, if_neg (by decide), if_pos rfl, scanString_control control]
  next printable =>
    change scanString .plain (c :: cs) = _
    rw [scanString, if_neg notQuote, if_neg notBackslash, if_neg printable]

theorem scanString_quoted (cs rest : List Char) :
    scanString .plain (cs.flatMap escape ++ '"' :: rest) = (cs.map .char, .ok rest) := by
  induction cs with
  | nil => rw [List.flatMap_nil, List.nil_append, scanString, if_pos rfl, List.map_nil]
  | cons c cs ih => rw [List.flatMap_cons, List.append_assoc, scanString_escape, ih, List.map_cons]

theorem joinPieces_chars (cs : List Char) : joinPieces (cs.map .char) = some cs := by
  induction cs with
  | nil => rfl
  | cons c cs ih => rw [List.map_cons, joinPieces, ih, Option.map_some]

theorem stringToken_quoted (s : String) (rest : List Char) :
    stringToken (s.toList.flatMap escape ++ '"' :: rest) = ⟨.ok s, .ok rest⟩ := by
  unfold stringToken
  rw [scanString_quoted]
  dsimp only
  rw [joinPieces_chars]
  dsimp only
  rw [String.ofList_toList]

/-! ## Gaps -/

theorem skipGaps_cons {c : Char} (h : isGap c = false) (cs : List Char) :
    skipGaps (c :: cs) = c :: cs := by
  simp [skipGaps, h]

theorem skipGaps_line (layout : Layout) (depth : Nat) (cs : List Char) :
    skipGaps (layout.line depth ++ cs) = skipGaps cs := by
  have all : ∀ c ∈ layout.line depth, isGap c = true := by
    intro c hc
    cases layout with
    | compact => cases hc
    | pretty =>
      rcases List.mem_cons.mp hc with rfl | hc
      · decide
      · rw [List.eq_of_mem_replicate hc]
        decide
  exact List.dropWhile_append_of_pos all

/-- A value does not see the gaps in front of it. -/
theorem scanValue_congr {cs cs' : List Char} (same : skipGaps cs = skipGaps cs') (fuel : Nat) :
    scanValue fuel cs = scanValue fuel cs' := by
  cases fuel with
  | zero => rfl
  | succ fuel => rw [scanValue, scanValue, same]

/-! ## Values -/

namespace Value

mutual

/-- All numbers inside are numbers of JSON. -/
def Fits : Value → Prop
  | .number n => n.Fits
  | .array items => FitsItems items
  | .object members => FitsMembers members
  | _ => True

def FitsItems : List Value → Prop
  | [] => True
  | v :: vs => v.Fits ∧ FitsItems vs

def FitsMembers : List (String × Value) → Prop
  | [] => True
  | (_, v) :: ms => v.Fits ∧ FitsMembers ms

end

theorem write_head {v : Value} (fits : v.Fits) (layout : Layout) (depth : Nat) :
    ∃ c cs, v.write layout depth = c :: cs ∧ isGap c = false ∧ c ≠ ']' := by
  cases v with
  | null => exact ⟨_, _, rfl, by decide, by decide⟩
  | bool b => cases b <;> exact ⟨_, _, rfl, by decide, by decide⟩
  | string s => exact ⟨_, _, rfl, by decide, by decide⟩
  | array items => cases items <;> exact ⟨_, _, rfl, by decide, by decide⟩
  | object members =>
    rcases members with _ | ⟨⟨k, v⟩, ms⟩ <;> exact ⟨_, _, rfl, by decide, by decide⟩
  | number n =>
    obtain ⟨c, cs, front, first⟩ := n.write_head fits
    refine ⟨c, cs, front, ?_, ?_⟩
    · rcases first with rfl | digit
      · decide
      · cases gap : isGap c with
        | false => rfl
        | true =>
          simp only [isGap, Bool.or_eq_true, beq_iff_eq] at gap
          rcases gap with ((rfl | rfl) | rfl) | rfl <;> revert digit <;> decide
    · rintro rfl
      revert first
      decide

end Value

theorem endsNumber_cons {c : Char} (h : isDigit c = false ∧ c ≠ '.' ∧ c ≠ 'e' ∧ c ≠ 'E')
    (cs : List Char) : EndsNumber (c :: cs) := by
  intro d hd
  obtain rfl := Option.some.inj hd
  exact h

theorem endsNumber_line (layout : Layout) (depth : Nat) {cs : List Char} (ends : EndsNumber cs) :
    EndsNumber (layout.line depth ++ cs) := by
  cases layout with
  | compact => exact ends
  | pretty => exact endsNumber_cons (by decide) _

theorem endsNumber_items (layout : Layout) (depth : Nat) (vs : List Value) {cs : List Char}
    (ends : EndsNumber cs) : EndsNumber (Value.writeItems layout depth vs ++ cs) := by
  cases vs with
  | nil => simpa [Value.writeItems] using ends
  | cons v vs =>
    rw [Value.writeItems]
    exact endsNumber_cons (by decide) _

theorem endsNumber_members (layout : Layout) (depth : Nat) (ms : List (String × Value))
    {cs : List Char} (ends : EndsNumber cs) :
    EndsNumber (Value.writeMembers layout depth ms ++ cs) := by
  cases ms with
  | nil => simpa [Value.writeMembers] using ends
  | cons m ms =>
    rw [Value.writeMembers]
    exact endsNumber_cons (by decide) _

section Containers

variable {fuel : Nat} {cs rest : List Char}

theorem scanValue_cons {c : Char} (h : isGap c = false) :
    scanValue (fuel + 1) (c :: cs) =
      if c = '"' then stringDoc cs
      else if c = '[' then
        (.array (scanItems fuel true cs).1.1 (scanItems fuel true cs).1.2,
          (scanItems fuel true cs).2)
      else if c = '{' then
        (.object (scanMembers fuel true cs).1.1 (scanMembers fuel true cs).1.2,
          (scanMembers fuel true cs).2)
      else if c = 'n' then wordDoc .null ['u', 'l', 'l'] cs
      else if c = 't' then wordDoc (.bool true) ['r', 'u', 'e'] cs
      else if c = 'f' then wordDoc (.bool false) ['a', 'l', 's', 'e'] cs
      else if c = '-' ∨ isDigit c then numberDoc (c :: cs)
      else (.broken .malformed .malformed, none) := by
  rw [scanValue, skipGaps_cons h]

theorem scanItem_eq {d : Doc} {ds : List Doc} {rest' : List Char}
    (value : scanValue fuel cs = (d, some rest))
    (items : scanItems fuel false rest = ((ds, none), some rest')) :
    scanItem (fuel + 1) cs = ((d :: ds, none), some rest') := by
  rw [scanItem, value]
  dsimp only
  rw [items]

theorem scanItems_first {c : Char} (front : skipGaps cs = c :: rest) (h : c ≠ ']') :
    scanItems (fuel + 1) true cs = scanItem fuel (c :: rest) := by
  rw [scanItems, front]
  dsimp only
  rw [if_neg h, if_pos rfl]

theorem scanItems_next {c : Char} (front : skipGaps cs = c :: rest) (h : c ≠ ']') :
    scanItems (fuel + 1) false (',' :: cs) = scanItem fuel (c :: rest) := by
  rw [scanItems, skipGaps_cons (by decide)]
  dsimp only
  rw [if_neg (by decide), if_neg (by decide), if_pos rfl, front]
  exact if_neg h

theorem scanItems_close {first : Bool} (front : skipGaps cs = ']' :: rest) :
    scanItems (fuel + 1) first cs = (([], none), some rest) := by
  rw [scanItems, front]
  exact if_pos rfl

theorem scanMember_eq {k : String} {d : Doc} {ds : List (Except Fault String × Doc)}
    {rest' : List Char} (value : scanValue fuel cs = (d, some rest))
    (members : scanMembers fuel false rest = ((ds, none), some rest')) :
    scanMember (fuel + 1) (k.toList.flatMap escape ++ '"' :: ':' :: cs) =
      (((.ok k, d) :: ds, none), some rest') := by
  rw [scanMember, stringToken_quoted]
  dsimp only
  rw [skipGaps_cons (by decide)]
  dsimp only
  rw [if_pos rfl, value]
  dsimp only
  rw [members]

theorem scanMembers_first (front : skipGaps cs = '"' :: rest) :
    scanMembers (fuel + 1) true cs = scanMember fuel rest := by
  rw [scanMembers, front]
  dsimp only
  rw [if_neg (by decide), if_pos rfl, if_pos rfl]

theorem scanMembers_next (front : skipGaps cs = '"' :: rest) :
    scanMembers (fuel + 1) false (',' :: cs) = scanMember fuel rest := by
  rw [scanMembers, skipGaps_cons (by decide)]
  dsimp only
  rw [if_neg (by decide), if_neg (by decide), if_pos rfl, front]
  exact if_pos rfl

theorem scanMembers_close {first : Bool} (front : skipGaps cs = '}' :: rest) :
    scanMembers (fuel + 1) first cs = (([], none), some rest) := by
  rw [scanMembers, front]
  exact if_pos rfl

theorem quote_colon (k : String) (layout : Layout) (cs : List Char) :
    Json.quote k ++ (layout.colon ++ cs) =
      '"' :: (k.toList.flatMap escape ++ '"' :: ':' :: (layout.colon.tail ++ cs)) := by
  cases layout <;> simp [Json.quote, Layout.colon]

theorem scanValue_colon (layout : Layout) : scanValue fuel (layout.colon.tail ++ cs) =
    scanValue fuel cs := by
  apply scanValue_congr
  cases layout <;> simp [Layout.colon, skipGaps, isGap]

end Containers

theorem Value.write_pos {v : Value} (fits : v.Fits) (layout : Layout) (depth : Nat) :
    0 < (v.write layout depth).length := by
  obtain ⟨c, cs, front, -⟩ := Value.write_head fits layout depth
  rw [front]
  simp

mutual

/-- The text of a value is read as the value, and what follows it is left. -/
theorem scanValue_write (layout : Layout) : ∀ (v : Value), v.Fits → ∀ (depth fuel : Nat)
    (rest : List Char), EndsNumber rest → 3 * (v.write layout depth ++ rest).length ≤ fuel + 1 →
    scanValue (fuel + 1) (v.write layout depth ++ rest) = (.ofValue v, some rest)
  | .null, _, _, _, _, _, _ => rfl
  | .bool true, _, _, _, _, _, _ => rfl
  | .bool false, _, _, _, _, _, _ => rfl
  | .number n, fits, depth, fuel, rest, ends, _ => by
    obtain ⟨c, cs, front, notGap, -⟩ := Value.write_head fits layout depth
    obtain ⟨c', cs', front', first⟩ := n.write_head fits
    obtain ⟨rfl, rfl⟩ := List.cons.inj (front.symm.trans front')
    have doc := numberDoc_write fits ends
    rw [front'] at doc
    have other : ∀ d : Char, ¬ (d = '-' ∨ isDigit d = true) → c ≠ d := by
      rintro d no rfl
      exact no first
    rw [front, List.cons_append, scanValue_cons notGap, if_neg (other _ (by decide)),
      if_neg (other _ (by decide)), if_neg (other _ (by decide)), if_neg (other _ (by decide)),
      if_neg (other _ (by decide)), if_neg (other _ (by decide)), if_pos first]
    exact doc
  | .string s, _, depth, fuel, rest, _, _ => by
    change scanValue (fuel + 1) ('"' :: (s.toList.flatMap escape ++ ['"'] ++ rest)) = _
    rw [scanValue_cons (by decide), if_pos rfl, List.append_assoc, List.singleton_append]
    unfold stringDoc
    rw [stringToken_quoted]
    rfl
  | .array [], _, depth, fuel, rest, _, enough => by
    change scanValue (fuel + 1) ('[' :: ']' :: rest) = _
    obtain ⟨fuel, rfl⟩ : ∃ f, fuel = f + 1 := ⟨fuel - 1, by simp [Value.write] at enough; omega⟩
    rw [scanValue_cons (by decide), if_neg (by decide), if_pos rfl,
      scanItems_close (skipGaps_cons (by decide) _)]
    rfl
  | .array (v :: vs), fits, depth, fuel, rest, _, enough => by
    have pos := Value.write_pos fits.1 layout (depth + 1)
    simp only [Value.write, List.cons_append, List.append_assoc, List.nil_append,
      List.length_cons, List.length_append] at enough ⊢
    obtain ⟨fuel, rfl⟩ : ∃ f, fuel = f + 3 := ⟨fuel - 3, by omega⟩
    have value := scanValue_write layout v fits.1 (depth + 1) fuel
      (Value.writeItems layout depth vs ++ (layout.line depth ++ ']' :: rest))
      (endsNumber_items _ _ _ (endsNumber_line _ _ (endsNumber_cons (by decide) _)))
      (by simp only [List.length_append, List.length_cons]; omega)
    have items := scanItems_write layout vs fits.2 depth fuel rest
      (by simp only [List.length_append, List.length_cons]; omega)
    obtain ⟨c, cs, front, notGap, notClose⟩ := Value.write_head fits.1 layout (depth + 1)
    rw [front, List.cons_append] at value
    rw [scanValue_cons (by decide), if_neg (by decide), if_pos rfl, front,
      List.cons_append,
      scanItems_first ((skipGaps_line ..).trans (skipGaps_cons notGap _)) notClose,
      scanItem_eq value items]
    rfl
  | .object [], _, depth, fuel, rest, _, enough => by
    change scanValue (fuel + 1) ('{' :: '}' :: rest) = _
    obtain ⟨fuel, rfl⟩ : ∃ f, fuel = f + 1 := ⟨fuel - 1, by simp [Value.write] at enough; omega⟩
    rw [scanValue_cons (by decide), if_neg (by decide), if_neg (by decide), if_pos rfl,
      scanMembers_close (skipGaps_cons (by decide) _)]
    rfl
  | .object ((k, v) :: ms), fits, depth, fuel, rest, _, enough => by
    have pos := Value.write_pos fits.1 layout (depth + 1)
    simp only [Value.write, List.cons_append, List.append_assoc, List.nil_append, quote_colon,
      List.length_cons, List.length_append] at enough ⊢
    obtain ⟨fuel, rfl⟩ : ∃ f, fuel = f + 3 := ⟨fuel - 3, by omega⟩
    have value := scanValue_write layout v fits.1 (depth + 1) fuel
      (Value.writeMembers layout depth ms ++ (layout.line depth ++ '}' :: rest))
      (endsNumber_members _ _ _ (endsNumber_line _ _ (endsNumber_cons (by decide) _)))
      (by simp only [List.length_append, List.length_cons]; omega)
    have members := scanMembers_write layout ms fits.2 depth fuel rest
      (by simp only [List.length_append, List.length_cons]; omega)
    rw [← scanValue_colon layout] at value
    rw [scanValue_cons (by decide), if_neg (by decide), if_neg (by decide), if_pos rfl,
      scanMembers_first ((skipGaps_line ..).trans (skipGaps_cons (by decide) _)),
      scanMember_eq value members]
    rfl

theorem scanItems_write (layout : Layout) : ∀ (vs : List Value), Value.FitsItems vs →
    ∀ (depth fuel : Nat) (rest : List Char),
    3 * (Value.writeItems layout depth vs ++ (layout.line depth ++ ']' :: rest)).length + 2 ≤
      fuel + 1 →
    scanItems (fuel + 1) false
      (Value.writeItems layout depth vs ++ (layout.line depth ++ ']' :: rest)) =
      ((Doc.ofItems vs, none), some rest)
  | [], _, depth, fuel, rest, _ => by
    rw [Value.writeItems, List.nil_append,
      scanItems_close ((skipGaps_line ..).trans (skipGaps_cons (by decide) _))]
    rfl
  | v :: vs, fits, depth, fuel, rest, enough => by
    have pos := Value.write_pos fits.1 layout (depth + 1)
    simp only [Value.writeItems, List.cons_append, List.append_assoc, List.length_cons,
      List.length_append] at enough ⊢
    obtain ⟨fuel, rfl⟩ : ∃ f, fuel = f + 2 := ⟨fuel - 2, by omega⟩
    have value := scanValue_write layout v fits.1 (depth + 1) fuel
      (Value.writeItems layout depth vs ++ (layout.line depth ++ ']' :: rest))
      (endsNumber_items _ _ _ (endsNumber_line _ _ (endsNumber_cons (by decide) _)))
      (by simp only [List.length_append, List.length_cons]; omega)
    have items := scanItems_write layout vs fits.2 depth fuel rest
      (by simp only [List.length_append, List.length_cons]; omega)
    obtain ⟨c, cs, front, notGap, notClose⟩ := Value.write_head fits.1 layout (depth + 1)
    rw [front, List.cons_append] at value
    rw [front, List.cons_append,
      scanItems_next ((skipGaps_line ..).trans (skipGaps_cons notGap _)) notClose,
      scanItem_eq value items]
    rfl

theorem scanMembers_write (layout : Layout) : ∀ (ms : List (String × Value)),
    Value.FitsMembers ms → ∀ (depth fuel : Nat) (rest : List Char),
    3 * (Value.writeMembers layout depth ms ++ (layout.line depth ++ '}' :: rest)).length + 2 ≤
      fuel + 1 →
    scanMembers (fuel + 1) false
      (Value.writeMembers layout depth ms ++ (layout.line depth ++ '}' :: rest)) =
      ((Doc.ofMembers ms, none), some rest)
  | [], _, depth, fuel, rest, _ => by
    rw [Value.writeMembers, List.nil_append,
      scanMembers_close ((skipGaps_line ..).trans (skipGaps_cons (by decide) _))]
    rfl
  | (k, v) :: ms, fits, depth, fuel, rest, enough => by
    have pos := Value.write_pos fits.1 layout (depth + 1)
    simp only [Value.writeMembers, List.cons_append, List.append_assoc, quote_colon,
      List.length_cons, List.length_append] at enough ⊢
    obtain ⟨fuel, rfl⟩ : ∃ f, fuel = f + 2 := ⟨fuel - 2, by omega⟩
    have value := scanValue_write layout v fits.1 (depth + 1) fuel
      (Value.writeMembers layout depth ms ++ (layout.line depth ++ '}' :: rest))
      (endsNumber_members _ _ _ (endsNumber_line _ _ (endsNumber_cons (by decide) _)))
      (by simp only [List.length_append, List.length_cons]; omega)
    have members := scanMembers_write layout ms fits.2 depth fuel rest
      (by simp only [List.length_append, List.length_cons]; omega)
    rw [← scanValue_colon layout] at value
    rw [scanMembers_next ((skipGaps_line ..).trans (skipGaps_cons (by decide) _)),
      scanMember_eq value members]
    rfl

end

theorem Document.ofChars_write {v : Value} (fits : v.Fits) (layout : Layout) :
    Document.ofChars (v.write layout 0) = ⟨.ofValue v, false⟩ := by
  have scanned := scanValue_write layout v fits 0 (3 * (v.write layout 0).length + 2) []
    (fun c hc => by cases hc) (by rw [List.append_nil]; omega)
  rw [List.append_nil] at scanned
  unfold Document.ofChars
  rw [scanned]
  rfl

end BlockStage.Json
