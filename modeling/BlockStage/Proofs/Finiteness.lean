import BlockStage.Proofs.Decimal.Shape
import BlockStage.Proofs.Dict
import BlockStage.Proofs.Digits
import BlockStage.Proofs.Lockstep
import BlockStage.Proofs.Variables

/-! # Finite variables

Evaluation turns every number that is not finite into zero, so what an assignment stores is finite.
A change adds to what is stored and keeps the sum as it is: the sum of two finite numbers can leave
their range. This is the only way for a variable to become infinite, and no variable is ever
undefined.
-/
namespace BlockStage

open Float.Model (UnpackedFloat)

section Numbers

theorem finiteOrZero_isFinite (x : Float) : (finiteOrZero x).isFinite = true := by
  unfold finiteOrZero
  split
  · assumption
  · decide

theorem Val.toNumber_isFinite (v : Val) : v.toNumber.isFinite = true := by
  cases v with
  | num x => exact finiteOrZero_isFinite x
  | bool b => cases b <;> decide
  | str s => exact finiteOrZero_isFinite _

theorem Expr.evalNumber_isFinite (store : Store) (e : Expr) :
    (e.evalNumber store).isFinite = true := Val.toNumber_isFinite _

/-- Only a variable can have a number for a value that is not finite. -/
theorem Expr.eval_isFinite {store : Store} {e : Expr} {y : Float} (eval : e.eval store = .num y) :
    y.isFinite = true ∨ ∃ name, e = .var name ∧ y = store.read name := by
  cases e with
  | num x =>
    obtain rfl := Val.num.inj eval
    exact .inl (finiteOrZero_isFinite x)
  | var name => exact .inr ⟨name, rfl, (Val.num.inj eval).symm⟩
  | bin op l r =>
    obtain rfl := Val.num.inj eval
    exact .inl (finiteOrZero_isFinite _)
  | unsupported =>
    obtain rfl := Val.num.inj eval
    exact .inl (by decide)
  | _ => cases eval

theorem normalize_ne_notANumber (m e : Int) (s : UnpackedFloat.Sign) :
    UnpackedFloat.normalize .binary64 m e s ≠ .notANumber := by
  unfold UnpackedFloat.normalize
  split
  · exact Decimal.roundWithAccuracy_ne_notANumber
  · simp
  · exact Decimal.roundWithAccuracy_ne_notANumber

theorem add_isNaN {x y : Float} (hx : x.isNaN = false) (hy : y.isFinite = true) :
    (x + y).isNaN = false := by
  change x.toModel.unpack.isNaN = false at hx
  change y.toModel.unpack.isFinite = true at hy
  have defined : UnpackedFloat.add .binary64 x.toModel.unpack y.toModel.unpack ≠ .notANumber := by
    cases hu : x.toModel.unpack <;> cases hw : y.toModel.unpack <;>
      simp_all [UnpackedFloat.add, UnpackedFloat.isNaN, UnpackedFloat.isFinite,
        normalize_ne_notANumber]
    split <;> simp
  exact Decimal.isNaN_pack defined

end Numbers

section Texts

open Decimal (Style Scaled plain)

/-- Digits, point and sign: the characters of a finite number without an exponent. -/
def isNumeric (c : Char) : Bool := Text.isDigit c || c == '.' || c == '-'

theorem positionalForm_isNumeric {ds : List Char} (h : ∀ c ∈ ds, isNumeric c = true) (whole : Int) :
    ∀ c ∈ Decimal.positionalForm false ds whole, isNumeric c = true := by
  have zeros : ∀ (n : Nat) (c : Char), c ∈ List.replicate n '0' → isNumeric c = true := by
    intro n c hc
    rw [(List.mem_replicate.mp hc).2]
    decide
  intro c hc
  unfold Decimal.positionalForm at hc
  dsimp only at hc
  split at hc
  · simp only [List.cons_append, List.mem_cons, List.mem_append] at hc
    rcases hc with rfl | rfl | hc | hc
    · decide
    · decide
    · exact zeros _ c hc
    · exact h c hc
  · split at hc
    · rcases List.mem_append.mp hc with hc | hc
      · exact h c (List.mem_of_mem_take hc)
      · rcases List.mem_cons.mp hc with rfl | hc
        · decide
        · exact h c (List.mem_of_mem_drop hc)
    · simp only [List.append_nil, List.mem_append, Bool.false_eq_true, if_false] at hc
      rcases hc with hc | hc
      · exact h c hc
      · exact zeros _ c hc

theorem display_isNumeric {x : Float} (finite : x.isFinite = true) :
    ∀ c ∈ (Decimal.display x).toList, isNumeric c = true := by
  obtain ⟨n, b, shape⟩ := Decimal.isFinite_iff.mp finite
  have magnitude : ∀ c ∈ (b.shortest plain.tie).write plain, isNumeric c = true := by
    intro c hc
    unfold Scaled.write at hc
    split at hc
    · simp only [plain, Bool.false_eq_true, if_false, List.mem_singleton] at hc
      rw [hc]
      decide
    · refine positionalForm_isNumeric (fun d hd => ?_) _ c (by simpa [plain] using hc)
      simp [isNumeric, Text.isDigit_of_mem_digits hd]
  intro c hc
  rw [Decimal.display, String.toList_ofList, Style.write, shape] at hc
  dsimp only [Decimal.signed] at hc
  split at hc
  · rcases List.mem_cons.mp hc with rfl | hc
    · decide
    · exact magnitude c hc
  · exact magnitude c hc

theorem display_ne_of_isFinite {x : Float} (finite : x.isFinite = true) :
    Decimal.display x ≠ "inf" ∧ Decimal.display x ≠ "-inf" ∧ Decimal.display x ≠ "NaN" := by
  have numeric := display_isNumeric finite
  refine ⟨?_, ?_, ?_⟩ <;> intro text <;> rw [text] at numeric
  · exact absurd (numeric 'i' (by decide)) (by decide)
  · exact absurd (numeric 'i' (by decide)) (by decide)
  · exact absurd (numeric 'N' (by decide)) (by decide)

theorem display_ne_of_isNaN {x : Float} (defined : x.isNaN = false) :
    Decimal.display x ≠ "NaN" := by
  rw [← Bool.not_eq_true, Decimal.isNaN_iff] at defined
  cases shape : Decimal.shape x with
  | notANumber => exact absurd shape defined
  | infinite n =>
    rw [Decimal.display, Style.write, shape]
    cases n <;> decide
  | finite n b => exact (display_ne_of_isFinite (Decimal.isFinite_iff.mpr ⟨n, b, shape⟩)).2.2

end Texts

/-- The step adds to a variable, and the sum is out of the range of the finite numbers. -/
def Visit.Overflows (v : Visit) (name : String) : Prop :=
  ∃ id delta, v.thread.current? = some (.simple id (.changeVar name delta)) ∧
    (v.engine.store.read name).isFinite = true ∧
    (v.engine.store.read name + delta.evalNumber v.engine.store).isFinite = false

/-- One of the steps has made the variable infinite, and every step since then has found it so: it
has not been set again. -/
def Overflowed (h : List Visit) (name : String) : Prop :=
  ∃ before v after, h = before ++ v :: after ∧ v.Overflows name ∧
    ∀ w ∈ after, (w.engine.store.read name).isFinite = false

theorem Overflowed.later {h : List Visit} {v : Visit} {name : String} (o : Overflowed h name)
    (infinite : (v.engine.store.read name).isFinite = false) : Overflowed (h ++ [v]) name := by
  obtain ⟨before, u, after, rfl, overflows, since⟩ := o
  refine ⟨before, u, after ++ [v], by simp, overflows, ?_⟩
  intro w hw
  rcases List.mem_append.mp hw with hw | hw
  · exact since w hw
  · rw [List.mem_singleton.mp hw]
    exact infinite

/-- The variables behind the given steps: none of them is undefined, and one that is infinite has
overflowed. -/
def Store.Tame (h : List Visit) (s : Store) : Prop :=
  ∀ name x, s.find? name = some x → x.isNaN = false ∧ (x.isFinite = false → Overflowed h name)

namespace Store.Tame

variable {h : List Visit} {s : Store} {name : String} {x : Float}

theorem empty : Store.Tame h .empty := by
  intro name x found
  cases found

theorem read (tame : s.Tame h) (name : String) :
    (s.read name).isNaN = false ∧ ((s.read name).isFinite = false → Overflowed h name) := by
  unfold Store.read
  cases found : s.find? name with
  | none => exact ⟨by decide, fun infinite => absurd infinite (by decide)⟩
  | some x => exact tame name x found

theorem later {v : Visit} (tame : v.engine.store.Tame h) : v.engine.store.Tame (h ++ [v]) := by
  intro name x found
  obtain ⟨defined, overflowed⟩ := tame name x found
  refine ⟨defined, fun infinite => (overflowed infinite).later ?_⟩
  rw [Store.read, found]
  exact infinite

theorem erase (tame : s.Tame h) (name : String) : Store.Tame h (s.erase name) := by
  intro other x found
  by_cases same : other = name
  · rw [same, Dict.find?_erase_self] at found
    cases found
  · rw [Dict.find?_erase_ne _ same] at found
    exact tame other x found

theorem written (tame : s.Tame h) (defined : x.isNaN = false)
    (overflowed : x.isFinite = false → Overflowed h name) :
    (Structured.written s name x).Tame h := by
  unfold Structured.written
  split
  · exact tame
  · intro other y found
    by_cases same : other = name
    · rw [same, Dict.find?_insert_self] at found
      obtain rfl := Option.some.inj found
      rw [same]
      exact ⟨defined, overflowed⟩
    · rw [Dict.find?_insert_ne _ same] at found
      exact tame other y found

end Store.Tame

/-- A step keeps the variables tame: assignments store finite numbers, and a change to a variable
that was finite is the overflow itself. -/
theorem Visit.after_tame {h : List Visit} {v : Visit} (tame : v.engine.store.Tame h) :
    v.after.store.Tame (h ++ [v]) := by
  have stores := v.after_stores
  have later := tame.later
  generalize v.after.store = s at stores ⊢
  cases stores with
  | kept => exact later
  | deleted cur => exact later.erase _
  | @set _ _ value cur =>
    have finite := value.evalNumber_isFinite v.engine.store
    exact later.written (Decimal.isNaN_of_isFinite finite)
      (fun infinite => by simp [finite] at infinite)
  | @changed id name delta cur =>
    have finite := delta.evalNumber_isFinite v.engine.store
    obtain ⟨defined, overflowed⟩ := later.read name
    refine later.written (add_isNaN defined finite) (fun infinite => ?_)
    cases before : (v.engine.store.read name).isFinite with
    | false => exact overflowed before
    | true =>
      have overflows : v.Overflows name := ⟨id, delta, cur, before, infinite⟩
      exact ⟨h, v, [], rfl, overflows, List.forall_mem_nil _⟩

namespace Engine

/-- An engine whose variables are tame behind its steps, beside itself. -/
def Tame (h : List Visit) (e e' : Engine) : Prop := e' = e ∧ e.store.Tame h

theorem lockstep_tame : Lockstep Tame where
  view := by
    rintro h e e' ⟨rfl, -⟩
    exact .refl _
  begins := by
    rintro h e e' now ⟨rfl, tame⟩
    exact ⟨rfl, by simpa using tame⟩
  prunes := by
    rintro h e e' ⟨rfl, tame⟩
    exact ⟨rfl, tame⟩
  counts := by
    rintro h e e' ⟨rfl, tame⟩
    exact ⟨rfl, tame⟩
  requests := by
    rintro h e e' ⟨rfl, tame⟩
    exact ⟨rfl, tame⟩
  ends := by
    rintro h e e' line ⟨rfl, tame⟩
    exact ⟨rfl, tame⟩
  steps := by
    rintro h e' v t' due ⟨rfl, tame⟩ listed
    obtain rfl := Option.some.inj (due.listed.symm.trans listed)
    exact ⟨due.progress.symm, rfl, Visit.after_tame tame⟩

/-- In every run from a fresh engine, behind its operations and before each of its steps. -/
theorem performAll_tame (l : Limits) (ops : List Operation) :
    let e : Engine := { limits := l }
    Along Tame (e.history ops) (e.performAll ops) (e.performAll ops) := by
  refine performAll_along lockstep_tame (fun op _ notTick => ?_) ⟨rfl, .empty⟩
  rintro ⟨rfl, tame⟩
  refine ⟨rfl, ?_⟩
  cases op with
  | tick now => exact absurd rfl (notTick now)
  | start now => simpa [perform] using tame
  | _ => exact tame

end Engine

/-- Everything that the variables can be asked for behind the given steps: what is stored, what an
expression evaluates to, and the text of that as a message. A number that is not finite comes from a
variable that has overflowed. -/
structure Store.FiniteUnlessOverflowed (h : List Visit) (s : Store) : Prop where
  stored : ∀ name x, s.find? name = some x →
    x.isNaN = false ∧ (x.isFinite = false → Overflowed h name)
  evaluated : ∀ e y, Expr.eval s e = .num y →
    y.isNaN = false ∧ (y.isFinite = false → ∃ name, e = .var name ∧ Overflowed h name)
  named : ∀ e y, Expr.eval s e = .num y →
    (Expr.eval s e).display ≠ "NaN" ∧
    ((Expr.eval s e).display = "inf" ∨ (Expr.eval s e).display = "-inf" →
      ∃ name, e = .var name ∧ Overflowed h name)

theorem Store.Tame.finiteUnlessOverflowed {h : List Visit} {s : Store} (tame : s.Tame h) :
    s.FiniteUnlessOverflowed h := by
  have evaluated : ∀ e y, Expr.eval s e = .num y →
      y.isNaN = false ∧ (y.isFinite = false → ∃ name, e = .var name ∧ Overflowed h name) := by
    intro e y eval
    rcases Expr.eval_isFinite eval with finite | ⟨name, rfl, rfl⟩
    · exact ⟨Decimal.isNaN_of_isFinite finite, fun infinite => by simp [finite] at infinite⟩
    · obtain ⟨defined, overflowed⟩ := tame.read name
      exact ⟨defined, fun infinite => ⟨name, rfl, overflowed infinite⟩⟩
  refine ⟨tame, evaluated, fun e y eval => ?_⟩
  obtain ⟨defined, overflowed⟩ := evaluated e y eval
  rw [eval]
  refine ⟨display_ne_of_isNaN defined, fun text => ?_⟩
  cases finite : y.isFinite with
  | false => exact overflowed finite
  | true =>
    obtain ⟨notInf, notNegInf, -⟩ := display_ne_of_isFinite finite
    exact text.elim (absurd · notInf) (absurd · notNegInf)

/-- In every run from a fresh engine, behind its operations and before each of its steps, no
variable is undefined, and no number is infinite but that of a variable to which an earlier step has
added beyond the range of the finite numbers, and which has been infinite ever since. Only the
variable by itself shows it: every other expression has a finite value, and its text is neither
`inf` nor `NaN`. -/
theorem variables_finite_unless_overflowed (l : Limits) (ops : List Engine.Operation) :
    let e : Engine := { limits := l }
    (e.performAll ops).store.FiniteUnlessOverflowed (e.history ops) ∧
    ∀ before v after, e.history ops = before ++ v :: after →
      v.engine.store.FiniteUnlessOverflowed before := by
  obtain ⟨⟨-, last⟩, earlier⟩ := Engine.performAll_tame l ops
  refine ⟨last.finiteUnlessOverflowed, fun before v after split => ?_⟩
  obtain ⟨_, -, tame⟩ := earlier before v after split
  exact tame.finiteUnlessOverflowed

/-- Sets a variable to the greatest finite number, adds as much again, and sends the variable as a
message; a handler waits for the text of infinity. -/
def overflowing : Program where
  scripts := [⟨"script", [
    .simple "set" (.setVar "x" (.num 1.7976931348623157e308)),
    .simple "change" (.changeVar "x" (.num 1.7976931348623157e308)),
    .simple "send" (.broadcast (.var "x") false)]⟩]
  handlers := .ofList [("inf", [⟨"handler", [.simple "heard" .unsupported]⟩])]

/-- Finite literals lead to an infinite variable, and the message of its text is received. -/
theorem finite_literals_overflow :
    let ops : List Engine.Operation :=
      [.load overflowing, .bind {}, .start 0, .tick 0, .tick 16000000]
    (1.7976931348623157e308 : Float).isFinite = true ∧
    ((({} : Engine).performAll ops).store.find? "x").map Float.isInf = some true ∧
    ((Expr.var "x").eval (({} : Engine).performAll ops).store).display = "inf" ∧
    ∃ v ∈ ({} : Engine).history ops, v.thread.current?.map Command.blockId = some "heard" := by
  decide +kernel

end BlockStage
