import BlockStage.Proofs.Program.Exchange

/-! # Texts of programs

The text of a program is read as the program if its numbers are finite and its containers are no
more than a text may open inside one another.
-/
namespace BlockStage

open BlockStage.Json (Value Layout textLevels)

/-! ## Numbers -/

theorem Expr.fits_toJson (e : Expr) : e.toJson.Fits := by
  induction e with
  | num x =>
    have value : (Value.ofFloat x).Fits := by
      unfold Value.ofFloat
      split
      next finite => exact finite
      next => trivial
    exact ⟨trivial, value, trivial⟩
  | bin _ _ _ hl hr | cmp _ _ _ hl hr | logic _ _ _ hl hr =>
    exact ⟨trivial, trivial, hl, hr, trivial⟩
  | bool | str | var => exact ⟨trivial, trivial, trivial⟩
  | unsupported => exact ⟨trivial, trivial⟩

namespace Command

theorem fits_objectJson {id type : String} {fields : List (String × Value)}
    (fits : Value.FitsMembers fields) : (objectJson id type fields).Fits :=
  ⟨trivial, trivial, fits⟩

mutual

theorem fits_toJson : ∀ c : Command, c.toJson.Fits
  | .simple id i => by
    rw [toJson]
    apply fits_objectJson
    cases i with
    | move e | turn e | wait e => exact ⟨e.fits_toJson, trivial⟩
    | setVar _ e | changeVar _ e => exact ⟨trivial, e.fits_toJson, trivial⟩
    | broadcast e _ => exact ⟨e.fits_toJson, trivial, trivial⟩
    | deleteVar => exact ⟨trivial, trivial⟩
    | breakLoop | continueLoop | stopAll | stopThis | unsupported => exact trivial
  | .repeatTimes id e body => by
    rw [toJson]
    exact fits_objectJson ⟨e.fits_toJson, fits_listJson body, trivial⟩
  | .forever id body => by
    rw [toJson]
    exact fits_objectJson ⟨fits_listJson body, trivial⟩
  | .ifThen id e body => by
    rw [toJson]
    exact fits_objectJson ⟨e.fits_toJson, fits_listJson body, trivial⟩
  | .ifElse id e yes no => by
    rw [toJson]
    exact fits_objectJson ⟨e.fits_toJson, fits_listJson yes, fits_listJson no, trivial⟩

theorem fits_listJson : ∀ cs : List Command, Value.FitsItems (listJson cs)
  | [] => trivial
  | c :: cs => by
    rw [listJson]
    exact ⟨fits_toJson c, fits_listJson cs⟩

end

end Command

theorem Script.fits_toJson (s : Script) : s.toJson.Fits :=
  ⟨trivial, Command.fits_listJson s.commands, trivial⟩

theorem Script.fits_all (ss : List Script) : Value.FitsItems (ss.map Script.toJson) := by
  induction ss with
  | nil => trivial
  | cons s ss ih => exact ⟨s.fits_toJson, ih⟩

theorem Program.fits_toJson (p : Program) : p.toJson.Fits := by
  have handlers : ∀ es : Entries (List Script), Value.FitsMembers (Program.handlersJson es) := by
    intro es
    induction es with
    | nil => trivial
    | cons e es ih => exact ⟨Script.fits_all e.2, ih⟩
  exact ⟨Script.fits_all p.scripts, handlers p.handlers.entries, trivial⟩

/-! ## Containers -/

theorem depthItems_le {vs : List Value} {n : Nat} :
    Value.depthItems vs ≤ n ↔ ∀ v ∈ vs, v.depth ≤ n := by
  induction vs with
  | nil => simp [Value.depthItems]
  | cons v vs ih => simp [Value.depthItems, ih]

theorem depthMembers_le {ms : List (String × Value)} {n : Nat} :
    Value.depthMembers ms ≤ n ↔ ∀ m ∈ ms, m.2.depth ≤ n := by
  induction ms with
  | nil => simp [Value.depthMembers]
  | cons m ms ih => simp [Value.depthMembers, ih]

/-- The containers that the written expression opens inside one another. -/
def Expr.depth (e : Expr) : Nat := e.toJson.depth

theorem Expr.depth_num (x : Float) : (Expr.num x).depth = 1 := by
  unfold depth toJson Value.ofFloat
  split <;> rfl

theorem Expr.depth_bin (op : ArithOp) (l r : Expr) :
    (Expr.bin op l r).depth = max l.depth r.depth + 1 := by
  simp [depth, toJson, Value.depth, Value.depthMembers]

theorem Expr.depth_cmp (op : CompareOp) (l r : Expr) :
    (Expr.cmp op l r).depth = max l.depth r.depth + 1 := by
  simp [depth, toJson, Value.depth, Value.depthMembers]

theorem Expr.depth_logic (op : LogicOp) (l r : Expr) :
    (Expr.logic op l r).depth = max l.depth r.depth + 1 := by
  simp [depth, toJson, Value.depth, Value.depthMembers]

namespace Command

def depth (c : Command) : Nat := c.toJson.depth

theorem depth_list {cs : List Command} {n : Nat} (each : ∀ c ∈ cs, c.depth ≤ n) :
    (Value.array (listJson cs)).depth ≤ n + 1 := by
  apply Nat.succ_le_succ
  induction cs with
  | nil => exact Nat.zero_le n
  | cons c cs ih =>
    have rest := ih fun d hd => each d (List.mem_cons_of_mem c hd)
    exact Nat.max_le.mpr ⟨each c List.mem_cons_self, rest⟩

theorem depth_objectJson {id type : String} {fields : List (String × Value)} {n : Nat}
    (each : ∀ m ∈ fields, m.2.depth ≤ n) : (objectJson id type fields).depth ≤ n + 1 := by
  apply Nat.succ_le_succ
  apply depthMembers_le.mpr
  simpa [Value.depth] using each

/-- A command opens a container itself, and another one for each of its lists. -/
theorem depth_le {c : Command} {n : Nat} (operand : ∀ e ∈ c.operand?, e.depth ≤ n + 1)
    (bodies : ∀ body ∈ c.bodies, ∀ d ∈ body, d.depth ≤ n) : c.depth ≤ n + 2 := by
  have list : ∀ body ∈ c.bodies, (Value.array (listJson body)).depth ≤ n + 1 :=
    fun body h => depth_list (bodies body h)
  unfold depth
  cases c with
  | simple id i =>
    rw [toJson]
    apply depth_objectJson
    cases i <;> simp_all [Instruction.fieldsJson, Command.operand?, Instruction.operand?,
      Value.depth, Expr.depth]
  | repeatTimes id e body | ifThen id e body =>
    rw [toJson]
    apply depth_objectJson
    simp_all [Command.operand?, Command.bodies, Expr.depth]
  | forever id body =>
    rw [toJson]
    apply depth_objectJson
    simp_all [Command.bodies]
  | ifElse id e yes no =>
    rw [toJson]
    apply depth_objectJson
    simp_all [Command.operand?, Command.bodies, Expr.depth]

end Command

theorem Script.depth_all {ss : List Script} {n : Nat}
    (each : ∀ s ∈ ss, ∀ c ∈ s.commands, c.depth ≤ n) :
    (Value.array (ss.map Script.toJson)).depth ≤ n + 3 := by
  apply Nat.succ_le_succ
  apply depthItems_le.mpr
  intro v hv
  obtain ⟨s, hs, rfl⟩ := List.mem_map.mp hv
  have commands := Command.depth_list (each s hs)
  apply Nat.succ_le_succ
  apply depthMembers_le.mpr
  simpa [Value.depth] using commands

theorem Program.depth_le {p : Program} {n : Nat}
    (scripts : ∀ s ∈ p.scripts, ∀ c ∈ s.commands, c.depth ≤ n + 1)
    (handlers : ∀ s ∈ p.allHandlers, ∀ c ∈ s.commands, c.depth ≤ n) :
    p.toJson.depth ≤ n + 5 := by
  have first := Script.depth_all scripts
  have second : (Value.object (handlersJson p.handlers.entries)).depth ≤ n + 4 := by
    apply Nat.succ_le_succ
    apply depthMembers_le.mpr
    intro m hm
    obtain ⟨e, he, rfl⟩ := List.mem_map.mp hm
    apply Script.depth_all
    intro s hs
    exact handlers s (List.mem_flatten_of_mem (List.mem_map_of_mem he) hs)
  apply Nat.succ_le_succ
  apply depthMembers_le.mpr
  intro m hm
  rcases List.mem_cons.mp hm with rfl | hm
  · exact first
  · rw [List.mem_singleton.mp hm]
    exact second

theorem Program.ofText_render {p : Program} (finite : p.FiniteLiterals)
    (depth : p.toJson.depth ≤ textLevels) (layout : Layout) :
    ofText (p.toJson.render layout) = .ok p := by
  rw [ofText, Json.text_render decoder p.fits_toJson layout]
  exact decoder_toJson finite (.refl _) depth

end BlockStage
