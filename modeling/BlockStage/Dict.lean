/-! # Dictionaries

Entries under text keys, kept in the order of the keys and without repetition. The order of texts is
the order of their code points. `Entries` holds the operations on plain lists, for types that nest
dictionaries in themselves; `Dict` carries the order in its type.
-/
namespace BlockStage

abbrev Entries (α : Type) := List (String × α)

namespace Entries

variable {α β : Type}

def Sorted (es : Entries α) : Prop := es.Pairwise (fun a b => a.1 < b.1)

def insert (key : String) (value : α) : Entries α → Entries α
  | [] => [(key, value)]
  | e :: es =>
    if key < e.1 then (key, value) :: e :: es
    else if key = e.1 then (key, value) :: es
    else e :: insert key value es

def find? (key : String) (es : Entries α) : Option α :=
  (List.find? (fun e => e.1 == key) es).map (·.2)

def erase (key : String) (es : Entries α) : Entries α :=
  List.filter (fun e => e.1 != key) es

/-- Later entries win over earlier ones with the same key. -/
def ofList (es : List (String × α)) : Entries α :=
  es.foldl (fun acc e => insert e.1 e.2 acc) []

theorem mem_insert {key : String} {value : α} {es : Entries α} {e : String × α}
    (h : e ∈ insert key value es) : e = (key, value) ∨ e ∈ es := by
  induction es with
  | nil => simpa [insert] using h
  | cons x es ih =>
    unfold insert at h
    split at h
    · simpa using h
    · split at h
      · simp only [List.mem_cons] at h ⊢
        rcases h with h | h
        · exact .inl h
        · exact .inr (.inr h)
      · simp only [List.mem_cons] at h ⊢
        rcases h with h | h
        · exact .inr (.inl h)
        · rcases ih h with h | h
          · exact .inl h
          · exact .inr (.inr h)

theorem Sorted.insert {es : Entries α} (h : Sorted es) (key : String) (value : α) :
    Sorted (es.insert key value) := by
  induction es with
  | nil => simp [Sorted, Entries.insert]
  | cons x es ih =>
    obtain ⟨hx, hes⟩ := List.pairwise_cons.1 h
    unfold Entries.insert
    split
    next hlt =>
      refine List.pairwise_cons.2 ⟨fun e he => ?_, h⟩
      rcases List.mem_cons.1 he with rfl | he
      · exact hlt
      · exact String.lt_trans hlt (hx e he)
    next hlt =>
      split
      next heq =>
        refine List.pairwise_cons.2 ⟨fun e he => ?_, hes⟩
        simpa [heq] using hx e he
      next hne =>
        refine List.pairwise_cons.2 ⟨fun e he => ?_, ih hes⟩
        rcases mem_insert he with rfl | he
        · exact Std.lt_of_le_of_ne (String.not_lt.1 hlt) (fun h => hne h.symm)
        · exact hx e he

theorem Sorted.filter {es : Entries α} (h : Sorted es) (p : String × α → Bool) :
    Sorted (es.filter p) :=
  List.Pairwise.filter p h

theorem sorted_ofList (es : List (String × α)) : Sorted (ofList es) := by
  have general : ∀ (l : List (String × α)) (acc : Entries α), Sorted acc →
      Sorted (l.foldl (fun acc e => Entries.insert e.1 e.2 acc) acc) := by
    intro l
    induction l with
    | nil => exact fun _ h => h
    | cons e l ih => exact fun acc h => ih _ (h.insert e.1 e.2)
  exact general es [] List.Pairwise.nil

end Entries

/-- A dictionary: entries in strictly increasing order of their keys. -/
structure Dict (α : Type) where
  entries : Entries α
  sorted : entries.Sorted := by exact List.Pairwise.nil

namespace Dict

variable {α β : Type}

def empty : Dict α := ⟨[], List.Pairwise.nil⟩

instance : Inhabited (Dict α) := ⟨empty⟩

def find? (d : Dict α) (key : String) : Option α := Entries.find? key d.entries

def insert (d : Dict α) (key : String) (value : α) : Dict α :=
  ⟨d.entries.insert key value, d.sorted.insert key value⟩

def erase (d : Dict α) (key : String) : Dict α :=
  ⟨d.entries.erase key, d.sorted.filter _⟩

def ofList (es : List (String × α)) : Dict α :=
  ⟨Entries.ofList es, Entries.sorted_ofList es⟩

def values (d : Dict α) : List α := d.entries.map (·.2)

end Dict

end BlockStage
