import BlockStage.CommandLine.Run
import BlockStage.Proofs.Files
import BlockStage.Proofs.Json.Values
import BlockStage.Proofs.Timestamp

/-! # Saved projects

A workspace that was read from a text and saved in a file is loaded as it was, but for the envelope
around it, which counts as one of the containers that a text may open inside one another: a
workspace that uses up all of them is saved and cannot be loaded again.
-/
namespace BlockStage

open BlockStage.Json (Value Fault Decoder Doc textLevels)

namespace Envelope

theorem timestamp_display {t : Timestamp} (valid : t.isValid = true) (levels : Nat) :
    timestamp levels (.ofValue (.string t.display)) = .ok t := by
  rw [timestamp, Doc.ofValue, Decoder.string]
  simp only [bind, Except.bind, Timestamp.display, String.toList_ofList,
    Timestamp.read?_write valid]
  rfl

/-- An envelope is read back if the workspace in it has one container less than may be opened. -/
theorem decoder_toJson {e : Envelope} (valid : e.savedAt.isValid = true)
    (ordered : e.workspace.Ordered) (levels : Nat) :
    decoder (levels + 1) (.ofValue e.toJson) =
      if e.workspace.depth ≤ levels then .ok e else .error .malformed := by
  have workspace := Json.any_ofValue e.workspace ordered levels
  have savedAt := timestamp_display valid levels
  unfold decoder toJson
  simp only [Doc.ofValue, Doc.ofMembers, Decoder.record, List.foldlM] at savedAt ⊢
  by_cases shallow : e.workspace.depth ≤ levels
  · rw [if_pos shallow] at workspace ⊢
    simp [bind, Except.bind, pure, Except.pure, Decoder.string, Decoder.close, Decoder.required,
      savedAt, workspace]
  · rw [if_neg shallow] at workspace ⊢
    simp [bind, Except.bind, pure, Except.pure, Decoder.string, savedAt, workspace]

theorem fits_toJson {e : Envelope} (fits : e.workspace.Fits) : e.toJson.Fits :=
  ⟨trivial, trivial, trivial, fits, trivial⟩

theorem extract_enclose (date : Timestamp) (v : Value) : (enclose date v).extract = .ok v := by
  simp [extract, enclose]

theorem openText_fileText {date : Timestamp} (valid : date.isValid = true) {v : Value}
    (fits : v.Fits) (ordered : v.Ordered) :
    openText (enclose date v).fileText =
      if v.depth < textLevels then .ok v else .error (.json .malformed) := by
  have read : ofText (enclose date v).fileText =
      if v.depth ≤ 126 then .ok (enclose date v) else .error .malformed := by
    rw [ofText, fileText, Json.text_render decoder (fits_toJson fits)]
    exact decoder_toJson (e := enclose date v) valid ordered 126
  have shallow : v.depth ≤ 126 ↔ v.depth < textLevels := Nat.lt_succ_iff.symm
  rw [openText, read]
  simp only [shallow]
  by_cases h : v.depth < textLevels
  · rw [if_pos h, if_pos h]
    exact extract_enclose date v
  · rw [if_neg h, if_neg h]

end Envelope

def World.prepare (w : World) (path : String) : World × Except FileFault Unit :=
  match Path.parent? path with
  | some dir => w.makeDirectories dir
  | none => (w, .ok ())

namespace FileStore

variable {w w' : World} {s : FileStore} {v : Value}

theorem writeText_run (path text : String) (w : World) :
    (do
      match ← (Host.writeText path text : Simulated _) with
      | .error fault => return .error (.io path fault)
      | .ok () => return .ok () : Simulated (Except ProjectError Unit)).run w =
    match w.write path text with
    | .error fault => (.error (.io path fault), w)
    | .ok w' => (.ok (), w') := by
  simp only [StateT.run, bind, StateT.bind, Host.writeText, Simulated.attempt]
  cases w.write path text <;> rfl

theorem save_run (s : FileStore) (v : Value) (w : World) :
    (s.save v : Simulated _).run w =
      match w.prepare s.path with
      | (w₁, .error fault) => (.error (.io s.path fault), w₁)
      | (w₁, .ok ()) =>
        match w₁.write s.path (Envelope.enclose w.date v).fileText with
        | .error fault => (.error (.io s.path fault), w₁)
        | .ok w₂ => (.ok (), w₂) := by
  unfold save World.prepare
  cases Path.parent? s.path with
  | none => exact writeText_run s.path _ w
  | some dir =>
    simp only [StateT.run, bind, StateT.bind, Host.date, Host.makeDirs, get, getThe,
      MonadStateOf.get, StateT.get, pure, StateT.pure, Simulated.makeDirectories]
    obtain ⟨w₁, fault | _⟩ := w.makeDirectories dir
    · rfl
    · exact writeText_run s.path _ w₁

theorem textAt_save (saved : (s.save v : Simulated _).run w = (.ok (), w')) :
    w'.textAt s.path = .ok (Envelope.enclose w.date v).fileText := by
  rw [save_run] at saved
  split at saved
  next => cases saved
  next w₁ _ =>
    split at saved
    next => cases saved
    next w₂ written =>
      obtain rfl : w₂ = w' := congrArg Prod.snd saved
      exact World.textAt_write written

/-- Any value that JSON has a text for is loaded as it was saved, if it leaves a container for the
envelope. -/
theorem load_save (valid : w.date.isValid = true) (fits : v.Fits) (ordered : v.Ordered)
    (saved : (s.save v : Simulated _).run w = (.ok (), w')) :
    (s.load : Simulated _).run w' =
      (if v.depth < textLevels then .ok (some v) else .error (.json .malformed), w') := by
  have run : (s.load : Simulated _).run w' =
      (some <$> Envelope.openText (Envelope.enclose w.date v).fileText, w') := by
    simp only [load, StateT.run, bind, StateT.bind, Host.readText, get, getThe, MonadStateOf.get,
      StateT.get, pure, StateT.pure, textAt_save saved]
  rw [run, Envelope.openText_fileText valid fits ordered]
  by_cases h : v.depth < textLevels
  · rw [if_pos h, if_pos h]
    rfl
  · rw [if_neg h, if_neg h]
    rfl

end FileStore

theorem readWorkspace_run (w : World) (path : String) :
    (CommandLine.readWorkspace path : Simulated _).run w =
      match w.textAt path with
      | .error fault =>
        (.error (.failure ("failed to read workspace " ++ path ++ ": " ++ fault.message)), w)
      | .ok text =>
        match Decoder.any.text text with
        | .ok v => (.ok v, w)
        | .error _ => (.error (.failure ("workspace " ++ path ++ " is not valid JSON:")), w) := by
  simp only [CommandLine.readWorkspace, StateT.run, bind, StateT.bind, Host.readText, get, getThe,
    MonadStateOf.get, StateT.get, pure, StateT.pure]
  cases w.textAt path with
  | error fault => rfl
  | ok text => cases h : Decoder.any.text text <;> simp only [h] <;> rfl

theorem readWorkspace_ok {w w' : World} {path : String} {v : Value}
    (accepted : (CommandLine.readWorkspace path : Simulated _).run w = (.ok v, w')) :
    w' = w ∧ ∃ text, w.textAt path = .ok text ∧ Decoder.any.text text = .ok v := by
  rw [readWorkspace_run] at accepted
  split at accepted
  next => cases accepted
  next text there =>
    split at accepted
    next v' read =>
      cases accepted
      exact ⟨rfl, text, there, read⟩
    next => cases accepted

/-! ## Nested arrays -/

def nested : Nat → Value
  | 0 => .array []
  | n + 1 => .array [nested n]

def brackets (n : Nat) : String := .ofList (List.replicate n '[' ++ List.replicate n ']')

theorem nested_fits (n : Nat) : (nested n).Fits := by
  induction n with
  | zero => trivial
  | succ n ih => exact ⟨ih, trivial⟩

theorem nested_ordered (n : Nat) : (nested n).Ordered := by
  induction n with
  | zero => trivial
  | succ n ih => exact ⟨ih, trivial⟩

theorem nested_depth (n : Nat) : (nested n).depth = n + 1 := by
  induction n with
  | zero => rfl
  | succ n ih => simp [nested, Value.depth, Value.depthItems, ih]

theorem nested_write (n depth : Nat) :
    (nested n).write .compact depth = List.replicate (n + 1) '[' ++ List.replicate (n + 1) ']' := by
  induction n generalizing depth with
  | zero => rfl
  | succ n ih =>
    rw [List.replicate_succ, List.replicate_succ' (n := n + 1), List.cons_append,
      ← List.append_assoc, ← ih (depth + 1)]
    rfl

theorem text_brackets {n : Nat} (h : n < textLevels) :
    Decoder.any.text (brackets (n + 1)) = .ok (nested n) := by
  have text : brackets (n + 1) = (nested n).render .compact := by
    rw [brackets, Value.render, nested_write]
  rw [text, Json.text_render _ (nested_fits n), Json.any_ofValue _ (nested_ordered n), nested_depth]
  exact if_pos h

/-- A working directory with a file `w` for a workspace. -/
def drafts (text : String) : World where
  root := .directory [("work", .directory [("w", .file text)])]

theorem textAt_drafts (text : String) : (drafts text).textAt "w" = .ok text := by
  cbv

theorem write_drafts (text project : String) :
    (drafts text).write "p" project = .ok ((drafts text).put ["work", "p"] (.file project)) := by
  cbv

theorem prepare_drafts (text : String) : (drafts text).prepare "p" = (drafts text, .ok ()) := by
  have parent : Path.parent? "p" = none := by cbv
  rw [World.prepare, parent]

theorem drafts_saved {n : Nat} (h : n < textLevels) :
    let w := drafts (brackets (n + 1))
    (CommandLine.readWorkspace "w" : Simulated _).run w = (.ok (nested n), w) ∧
      ∃ w', ((FileStore.mk "p").save (nested n) : Simulated _).run w = (.ok (), w') := by
  intro w
  refine ⟨?_, (w.put ["work", "p"] (.file (Envelope.enclose w.date (nested n)).fileText)), ?_⟩
  · rw [readWorkspace_run, textAt_drafts]
    simp only [text_brackets h]
  · rw [FileStore.save_run, prepare_drafts]
    simp only [w, write_drafts]

/-! ## Saving and loading -/

/-- A workspace that was read from a file and saved is loaded again as it was, if its containers are
fewer than a text may open inside one another. If they are as many, it is saved and lost. -/
theorem saved_workspace_loads {w w₁ w₂ : World} {s : FileStore} {path : String} {v : Value}
    (valid : w.date.isValid = true)
    (accepted : (CommandLine.readWorkspace path : Simulated _).run w = (.ok v, w₁))
    (saved : (s.save v : Simulated _).run w₁ = (.ok (), w₂)) :
    (s.load : Simulated _).run w₂ =
      (if v.depth < textLevels then .ok (some v) else .error (.json .malformed), w₂) := by
  obtain ⟨rfl, _, -, read⟩ := readWorkspace_ok accepted
  have read := Json.text_read read
  exact FileStore.load_save valid read.fits read.ordered saved

/-- All containers that a text may open but one. -/
theorem nested_workspace_loads : ∃ w,
    (CommandLine.readWorkspace "w" : Simulated _).run (drafts (brackets 126)) =
      (.ok (nested 125), drafts (brackets 126)) ∧
    ((FileStore.mk "p").save (nested 125) : Simulated _).run (drafts (brackets 126)) =
      (.ok (), w) ∧
    ((FileStore.mk "p").load : Simulated _).run w = (.ok (some (nested 125)), w) := by
  obtain ⟨accepted, w, saved⟩ := drafts_saved (n := 125) (by decide)
  refine ⟨w, accepted, saved, ?_⟩
  rw [saved_workspace_loads (w := drafts (brackets 126)) (by decide) accepted saved, nested_depth]
  rfl

/-- All containers that a text may open: the workspace is accepted and saved, and its file is
refused. -/
theorem deepest_workspace_lost : ∃ w,
    (CommandLine.readWorkspace "w" : Simulated _).run (drafts (brackets 127)) =
      (.ok (nested 126), drafts (brackets 127)) ∧
    ((FileStore.mk "p").save (nested 126) : Simulated _).run (drafts (brackets 127)) =
      (.ok (), w) ∧
    ((FileStore.mk "p").load : Simulated _).run w = (.error (.json .malformed), w) := by
  obtain ⟨accepted, w, saved⟩ := drafts_saved (n := 126) (by decide)
  refine ⟨w, accepted, saved, ?_⟩
  rw [FileStore.load_save (w := drafts (brackets 127)) (by decide) (nested_fits 126)
    (nested_ordered 126) saved, nested_depth]
  rfl

end BlockStage
