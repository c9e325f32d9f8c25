import BlockStage.Dict
import Mathlib.Data.List.Perm.Basic
import Mathlib.Data.List.Nodup

/-! # Dictionaries by their answers

What a dictionary answers after an entry is put into it or taken out of it, and that dictionaries
with the same answers are the same.
-/
namespace BlockStage

namespace Entries

variable {α : Type} {key other : String} {value : α} {es es' : Entries α}

theorem find?_cons (e : String × α) (es : Entries α) (key : String) :
    find? key (e :: es) = if e.1 = key then some e.2 else find? key es := by
  by_cases same : e.1 = key <;> simp [find?, same]

theorem find?_insert_self (key : String) (value : α) (es : Entries α) :
    find? key (insert key value es) = some value := by
  induction es with
  | nil => simp [insert, find?_cons]
  | cons e es ih =>
    unfold insert
    split
    · simp [find?_cons]
    · split
      · simp [find?_cons]
      next differs => rw [find?_cons, if_neg (Ne.symm differs), ih]

theorem find?_insert_ne (differs : other ≠ key) (value : α) (es : Entries α) :
    find? other (insert key value es) = find? other es := by
  induction es with
  | nil => simp [insert, find?_cons, Ne.symm differs]
  | cons e es ih =>
    unfold insert
    split
    · rw [find?_cons, if_neg (Ne.symm differs)]
    · split
      next same =>
        rw [find?_cons, find?_cons, if_neg (Ne.symm differs), if_neg (same ▸ Ne.symm differs)]
      · rw [find?_cons, find?_cons, ih]

theorem find?_erase_self (key : String) (es : Entries α) : find? key (erase key es) = none := by
  induction es with
  | nil => rfl
  | cons e es ih =>
    by_cases same : e.1 = key
    · simpa [erase, same] using ih
    · have kept : erase key (e :: es) = e :: erase key es := by simp [erase, same]
      rw [kept, find?_cons, if_neg same, ih]

theorem find?_erase_ne (differs : other ≠ key) (es : Entries α) :
    find? other (erase key es) = find? other es := by
  induction es with
  | nil => rfl
  | cons e es ih =>
    by_cases same : e.1 = key
    · have dropped : erase key (e :: es) = erase key es := by simp [erase, same]
      rw [dropped, ih, find?_cons, if_neg (same ▸ Ne.symm differs)]
    · have kept : erase key (e :: es) = e :: erase key es := by simp [erase, same]
      rw [kept, find?_cons, find?_cons, ih]

theorem insert_last (above : ∀ e ∈ es, e.1 < key) (value : α) :
    insert key value es = es ++ [(key, value)] := by
  induction es with
  | nil => rfl
  | cons e es ih =>
    have first := above e List.mem_cons_self
    have differs : key ≠ e.1 := by
      rintro rfl
      exact String.lt_irrefl _ first
    rw [insert, if_neg (String.lt_asymm first), if_neg differs,
      ih fun e' he' => above e' (List.mem_cons_of_mem e he')]
    rfl

theorem ofList_sorted (sorted : Sorted es) : ofList es = es := by
  have general : ∀ (rest done : Entries α), Sorted (done ++ rest) →
      List.foldl (fun acc e => insert e.1 e.2 acc) done rest = done ++ rest := by
    intro rest
    induction rest with
    | nil => intro done _; simp
    | cons e rest ih =>
      intro done sorted
      have above : ∀ d ∈ done, d.1 < e.1 := fun d hd =>
        (List.pairwise_append.mp sorted).2.2 d hd e List.mem_cons_self
      rw [List.foldl_cons, insert_last above, ih _ (by simpa using sorted)]
      simp
  exact general es [] sorted

theorem insert_comm (differs : key ≠ other) (value value' : α) (es : Entries α) :
    insert key value (insert other value' es) = insert other value' (insert key value es) := by
  induction es with
  | nil => grind [insert, String.lt_trans, String.lt_irrefl]
  | cons e es ih => grind [insert, String.lt_trans, String.lt_irrefl]

/-- Without repeated keys, the order of entries does not count. -/
theorem ofList_perm (perm : es.Perm es') (distinct : (es.map Prod.fst).Nodup) :
    ofList es = ofList es' := by
  refine perm.foldl_eq' (fun x hx y hy acc => ?_) []
  by_cases same : x.1 = y.1
  · rw [List.inj_on_of_nodup_map distinct hx hy same]
  · exact insert_comm (Ne.symm same) _ _ acc

theorem insert_perm (new : key ∉ es.map Prod.fst) (value : α) :
    (insert key value es).Perm ((key, value) :: es) := by
  induction es with
  | nil => exact .refl _
  | cons e es ih =>
    have differs : key ≠ e.1 := List.ne_of_not_mem_cons new
    rw [insert, if_neg differs]
    split
    · exact .refl _
    · exact ((ih (List.not_mem_of_not_mem_cons new)).cons e).trans (.swap ..)

theorem ofList_perm_self (distinct : (es.map Prod.fst).Nodup) : (ofList es).Perm es := by
  have general : ∀ (rest done : Entries α), ((done ++ rest).map Prod.fst).Nodup →
      (rest.foldl (fun acc e => insert e.1 e.2 acc) done).Perm (done ++ rest) := by
    intro rest
    induction rest with
    | nil =>
      intro done _
      rw [List.append_nil]
      exact .refl _
    | cons e rest ih =>
      intro done distinct
      have new : e.1 ∉ done.map Prod.fst := by
        rw [List.map_append, List.map_cons] at distinct
        intro mem
        exact (List.nodup_append.mp distinct).2.2 e.1 mem e.1 List.mem_cons_self rfl
      have here := ((insert_perm new e.2).append_right rest).trans List.perm_middle.symm
      exact (ih _ ((here.map Prod.fst).nodup_iff.mpr distinct)).trans here
  exact general es [] distinct

theorem mem_ofList {e : String × α} (h : e ∈ ofList es) : e ∈ es := by
  have general : ∀ (l : List (String × α)) (acc : Entries α),
      e ∈ l.foldl (fun acc e => insert e.1 e.2 acc) acc → e ∈ l ∨ e ∈ acc := by
    intro l
    induction l with
    | nil => exact fun _ h => .inr h
    | cons x l ih =>
      intro acc h
      rcases ih _ h with h | h
      · exact .inl (List.mem_cons_of_mem x h)
      · rcases mem_insert h with rfl | h
        · exact .inl List.mem_cons_self
        · exact .inr h
  exact (general es [] h).resolve_right List.not_mem_nil

theorem Sorted.distinct (sorted : Sorted es) : (es.map Prod.fst).Nodup := by
  refine List.pairwise_map.mpr (sorted.imp ?_)
  intro a b less same
  exact String.lt_irrefl _ (same ▸ less)

theorem find?_eq_none_of_lt (low : ∀ e ∈ es, key < e.1) : find? key es = none := by
  induction es with
  | nil => rfl
  | cons e es ih =>
    have differs : e.1 ≠ key := by
      intro same
      have lt := low e List.mem_cons_self
      rw [same] at lt
      exact String.lt_irrefl key lt
    rw [find?_cons, if_neg differs]
    exact ih fun e' he' => low e' (List.mem_cons_of_mem e he')

theorem not_lt_head {e e' : String × α} (sorted' : Sorted (e' :: es'))
    (same : find? e.1 (e :: es) = find? e.1 (e' :: es')) : ¬ e.1 < e'.1 := by
  intro lt
  have low : ∀ d ∈ e' :: es', e.1 < d.1 := by
    intro d hd
    rcases List.mem_cons.mp hd with rfl | hd
    · exact lt
    · exact String.lt_trans lt ((List.pairwise_cons.mp sorted').1 d hd)
  rw [find?_eq_none_of_lt low, find?_cons, if_pos rfl] at same
  cases same

theorem ext_find? (sorted : Sorted es) (sorted' : Sorted es')
    (same : ∀ key, find? key es = find? key es') : es = es' := by
  induction es generalizing es' with
  | nil =>
    cases es' with
    | nil => rfl
    | cons e' es' =>
      have found := same e'.1
      rw [find?_cons, if_pos rfl] at found
      cases found
  | cons e es ih =>
    cases es' with
    | nil =>
      have found := same e.1
      rw [find?_cons, if_pos rfl] at found
      cases found
    | cons e' es' =>
      have keys : e.1 = e'.1 := String.le_antisymm
        (String.not_lt.mp (not_lt_head sorted (same e'.1).symm))
        (String.not_lt.mp (not_lt_head sorted' (same e.1)))
      have values : e.2 = e'.2 := by
        have found := same e.1
        rw [find?_cons, if_pos rfl, find?_cons, if_pos keys.symm] at found
        exact Option.some.inj found
      obtain ⟨low, sorted⟩ := List.pairwise_cons.mp sorted
      obtain ⟨low', sorted'⟩ := List.pairwise_cons.mp sorted'
      have rest : es = es' := by
        apply ih sorted sorted'
        intro key
        by_cases first : e.1 = key
        · rw [find?_eq_none_of_lt (first ▸ low), find?_eq_none_of_lt (first ▸ keys ▸ low')]
        · have found := same key
          rwa [find?_cons, if_neg first, find?_cons, if_neg (keys ▸ first)] at found
      rw [rest, Prod.ext keys values]

end Entries

namespace Dict

variable {α : Type} {d d' : Dict α} {key other : String}

theorem ofList_entries (d : Dict α) : Dict.ofList d.entries = d := by
  obtain ⟨es, sorted⟩ := d
  simp only [Dict.ofList, Entries.ofList_sorted sorted]

theorem find?_insert_self (d : Dict α) (key : String) (value : α) :
    (d.insert key value).find? key = some value :=
  Entries.find?_insert_self key value d.entries

theorem find?_insert_ne (d : Dict α) (differs : other ≠ key) (value : α) :
    (d.insert key value).find? other = d.find? other :=
  Entries.find?_insert_ne differs value d.entries

theorem find?_erase_self (d : Dict α) (key : String) : (d.erase key).find? key = none :=
  Entries.find?_erase_self key d.entries

theorem find?_erase_ne (d : Dict α) (differs : other ≠ key) :
    (d.erase key).find? other = d.find? other :=
  Entries.find?_erase_ne differs d.entries

theorem ext_find? (same : ∀ key, d.find? key = d'.find? key) : d = d' := by
  obtain ⟨es, sorted⟩ := d
  obtain ⟨es', sorted'⟩ := d'
  obtain rfl : es = es' := Entries.ext_find? sorted sorted' same
  rfl

def map {β : Type} (f : α → β) (d : Dict α) : Dict β :=
  ⟨List.map (fun e => (e.1, f e.2)) d.entries, by
    simpa [Entries.Sorted, List.pairwise_map] using d.sorted⟩

theorem find?_map {β : Type} (f : α → β) (d : Dict α) (key : String) :
    (d.map f).find? key = (d.find? key).map f := by
  obtain ⟨es, sorted⟩ := d
  change Entries.find? key (List.map (fun e => (e.1, f e.2)) es) = (Entries.find? key es).map f
  clear sorted
  induction es with
  | nil => rfl
  | cons e es ih =>
    rw [List.map_cons, Entries.find?_cons, Entries.find?_cons, ih]
    split <;> rfl

end Dict

end BlockStage
