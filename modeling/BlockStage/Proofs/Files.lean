import BlockStage.Host.World
import BlockStage.Proofs.Dict

/-! # Files

A file that was written is found under the same path. Writing changes no directory on the way to it,
also where the path goes up again.
-/
namespace BlockStage

namespace Node

def IsDirectory (n : Node) (place : List String) : Prop :=
  ∃ es, n.find? place = some (.directory es)

theorem find?_put_self (n : Node) (place : List String) (old : Option Node) :
    (n.put place old).find? place = some n := by
  induction place generalizing old with
  | nil => simp [put, find?]
  | cons name rest ih => simp only [put, find?, Entries.find?_insert_self, ih]

theorem isDirectory_nil {n : Node} : n.IsDirectory [] ↔ ∃ es, n = .directory es := by
  simp [IsDirectory, find?]

theorem isDirectory_cons {n : Node} {name : String} {rest : List String} :
    n.IsDirectory (name :: rest) ↔
      ∃ es m, n = .directory es ∧ Entries.find? name es = some m ∧ m.IsDirectory rest := by
  cases n with
  | file text => simp [IsDirectory, find?]
  | directory es => cases found : Entries.find? name es <;> simp [IsDirectory, find?, found]

theorem IsDirectory.put {old : Node} {place other : List String} (free : ¬ old.IsDirectory place)
    (dir : old.IsDirectory other) (n : Node) : (n.put place (some old)).IsDirectory other := by
  induction place generalizing old other with
  | nil =>
    rw [isDirectory_nil] at free
    cases other with
    | nil => exact absurd (isDirectory_nil.mp dir) free
    | cons name rest =>
      obtain ⟨es, _, root, -⟩ := isDirectory_cons.mp dir
      exact absurd ⟨es, root⟩ free
  | cons name rest ih =>
    cases other with
    | nil => exact isDirectory_nil.mpr ⟨_, rfl⟩
    | cons name' rest' =>
      obtain ⟨es, m, rfl, found, dir⟩ := isDirectory_cons.mp dir
      refine isDirectory_cons.mpr ?_
      by_cases same : name' = name
      · subst same
        have free : ¬ m.IsDirectory rest := fun dir =>
          free (isDirectory_cons.mpr ⟨es, m, rfl, found, dir⟩)
        refine ⟨_, _, rfl, Entries.find?_insert_self _ _ _, ?_⟩
        rw [entries, found]
        exact ih free dir
      · exact ⟨_, m, rfl, (Entries.find?_insert_ne same _ _).trans found, dir⟩

end Node

namespace World

variable {w w' : World}

theorem follow_put {place : List String} (free : ¬ w.root.IsDirectory place) (n : Node)
    {names : List String} {start goal : List String} (h : w.follow start names = .ok goal) :
    (w.put place n).follow start names = .ok goal := by
  induction names generalizing start with
  | nil => exact h
  | cons name rest ih =>
    unfold follow at h ⊢
    split at h
    next => cases h
    next => cases h
    next es here =>
      obtain ⟨es', here'⟩ := Node.IsDirectory.put free ⟨es, here⟩ n
      have here' : (w.put place n).node? start = some (.directory es') := here'
      rw [here']
      dsimp only
      split at h
      next name => rw [if_pos name]; exact ih h
      next name =>
        rw [if_neg name]
        split at h
        next up => rw [if_pos up]; exact ih h
        next up =>
          rw [if_neg up]
          split at h
          next => cases h
          next short => rw [if_neg short]; exact ih h

theorem resolve_put {place goal : List String} (free : ¬ w.root.IsDirectory place) (n : Node)
    {path : String} (h : w.resolve path = .ok goal) : (w.put place n).resolve path = .ok goal := by
  unfold resolve at h ⊢
  split at h
  next => cases h
  next named =>
    rw [if_neg named]
    split at h
    next => cases h
    next => exact follow_put free n h

theorem write_ok {path text : String} (h : w.write path text = .ok w') :
    ∃ place, w.resolve path = .ok place ∧ ¬ w.root.IsDirectory place ∧
      w' = w.put place (.file text) := by
  unfold write at h
  split at h
  next =>
    dsimp only at h
    split at h <;> cases h
  next =>
    cases found : w.resolve path with
    | error fault => rw [found] at h; cases h
    | ok place =>
      simp only [found, bind, Except.bind] at h
      split at h
      next => cases h
      next free =>
        cases h
        exact ⟨place, rfl, fun ⟨es, dir⟩ => free es dir, rfl⟩

theorem textAt_write {path text : String} (h : w.write path text = .ok w') :
    w'.textAt path = .ok text := by
  obtain ⟨place, found, free, rfl⟩ := write_ok h
  have there : (w.put place (.file text)).node? place = some (.file text) :=
    Node.find?_put_self _ place _
  simp only [textAt, resolve_put free _ found, bind, Except.bind, there]

end World

end BlockStage
