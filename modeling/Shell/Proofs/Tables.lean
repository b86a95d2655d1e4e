/-
Tables, by their names.

The names of a table are those that `get?` finds something for, and `insert`, `erase` and `ofList` are
described by them. The entries of a table that was made by these stand in the order of their names, so it can be
told from them what the table is (`Table.ofList_of_sorted`).
-/
import Shell.Table

set_option autoImplicit false

namespace Shell.Table

variable {α : Type} {t : Table α} {key name : String} {value : α}

/-! ## 1. Names -/

/-- The names are those that the table has a value for. -/
theorem mem_keys_iff : key ∈ t.keys ↔ t.contains key = true := by
  obtain ⟨entries⟩ := t
  show key ∈ entries.map (·.1) ↔ (find? key entries).isSome = true
  induction entries with
  | nil => simp [find?]
  | cons e entries ih =>
    rw [List.map_cons, List.mem_cons, ih, find?]
    by_cases h : e.1 = key
    · simp only [h, true_or, if_true, Option.isSome_some]
    · simp only [Ne.symm h, h, false_or, if_false]

/-- Inserting adds one name. -/
theorem mem_keys_insert : name ∈ (t.insert key value).keys ↔ name = key ∨ name ∈ t.keys := by
  simp only [mem_keys_iff, contains, get?_insert]
  split
  · next h => simp [h]
  · next h => simp [Ne.symm h]

/-- Erasing takes one name away. -/
theorem mem_keys_erase : name ∈ (t.erase key).keys ↔ name ≠ key ∧ name ∈ t.keys := by
  simp only [mem_keys_iff, contains, get?_erase]
  split
  · next h => simp [h]
  · next h => simp [Ne.symm h]

/-- A table that is made of entries has their names. -/
theorem mem_keys_ofList {entries : List (String × α)} :
    name ∈ (ofList entries).keys ↔ name ∈ entries.map (·.1) := by
  have hfold (t : Table α) :
      name ∈ (entries.foldl (fun t e => t.insert e.1 e.2) t).keys ↔
        name ∈ t.keys ∨ name ∈ entries.map (·.1) := by
    induction entries generalizing t with
    | nil => simp
    | cons e entries ih =>
      rw [List.foldl_cons, ih, mem_keys_insert, List.map_cons, List.mem_cons, or_assoc]
      exact or_left_comm
  exact (hfold ∅).trans ⟨fun h => h.resolve_left nofun, .inr⟩

/-! ## 2. The order of the names -/

/-- Of two different names one comes before the other. -/
theorem lt_of_ne_of_not_lt {a b : String} (hne : a ≠ b) (h : ¬ b < a) : a < b :=
  Decidable.byContradiction fun hlt => hne (String.le_antisymm (String.not_lt.mp h) (String.not_lt.mp hlt))

/-- The entries stand in the order of their names, each name once. -/
def Sorted (t : Table α) : Prop := t.entries.Pairwise fun e e' => e.1 < e'.1

/-- An entry is the new one, or it was there. -/
theorem mem_put {key : String} {value : α} {entries : List (String × α)} {e : String × α}
    (h : e ∈ put key value entries) : e = (key, value) ∨ e ∈ entries := by
  induction entries with
  | nil => exact .inl (List.mem_singleton.mp h)
  | cons first rest ih =>
    unfold put at h
    split at h
    · exact (List.mem_cons.mp h).imp id (List.mem_cons_of_mem _)
    · split at h
      · exact List.mem_cons.mp h
      · rcases List.mem_cons.mp h with rfl | h
        · exact .inr List.mem_cons_self
        · exact (ih h).imp id (List.mem_cons_of_mem _)

/-- A new entry goes to its place. -/
theorem Sorted.insert (h : t.Sorted) (key : String) (value : α) : (t.insert key value).Sorted := by
  obtain ⟨entries⟩ := t
  show (put key value entries).Pairwise _
  change entries.Pairwise _ at h
  induction entries with
  | nil => exact List.pairwise_singleton _ _
  | cons first rest ih =>
    obtain ⟨hfirst, hrest⟩ := List.pairwise_cons.mp h
    unfold put
    split
    · next hkey =>
      obtain rfl := hkey
      exact List.pairwise_cons.mpr ⟨hfirst, hrest⟩
    · next hne =>
      split
      · next hlt =>
        refine List.pairwise_cons.mpr ⟨fun e he => ?_, h⟩
        rcases List.mem_cons.mp he with rfl | he
        · exact hlt
        · exact String.lt_trans hlt (hfirst e he)
      · next hge =>
        -- The key goes behind the first entry, so what comes behind is either the new entry or an old one.
        refine List.pairwise_cons.mpr ⟨fun e he => ?_, ih hrest⟩
        rcases mem_put he with rfl | he
        · exact lt_of_ne_of_not_lt hne hge
        · exact hfirst e he

/-- **The entries of a table stand in the order of their names.** -/
theorem sorted_ofList (entries : List (String × α)) : (ofList entries).Sorted := by
  have hfold (t : Table α) (h : t.Sorted) :
      (entries.foldl (fun t e => t.insert e.1 e.2) t).Sorted := by
    induction entries generalizing t with
    | nil => exact h
    | cons e entries ih => exact ih _ (h.insert e.1 e.2)
  exact hfold ∅ .nil

/-- A name after all others goes to the end. -/
theorem put_of_lt {key : String} {entries : List (String × α)} (h : ∀ e ∈ entries, e.1 < key)
    (value : α) : put key value entries = entries ++ [(key, value)] := by
  induction entries with
  | nil => rfl
  | cons e entries ih =>
    have hlt := h e List.mem_cons_self
    unfold put
    rw [if_neg (String.ne_of_lt hlt), if_neg (String.lt_asymm hlt),
      ih fun e he => h e (List.mem_cons_of_mem _ he)]
    rfl

/-- Entries in the order of their names, put into a table one after the other, are what it holds. -/
theorem ofList_of_sorted {entries : List (String × α)} (h : entries.Pairwise fun e e' => e.1 < e'.1) :
    ofList entries = ⟨entries⟩ := by
  have hfold (done : List (String × α)) (hall : (done ++ entries).Pairwise fun e e' => e.1 < e'.1) :
      entries.foldl (fun t e => t.insert e.1 e.2) (⟨done⟩ : Table α) = ⟨done ++ entries⟩ := by
    clear h
    induction entries generalizing done with
    | nil => rw [List.append_nil, List.foldl_nil]
    | cons e entries ih =>
      have hlt : ∀ d ∈ done, d.1 < e.1 := fun d hd =>
        (List.pairwise_append.mp hall).2.2 d hd e List.mem_cons_self
      have hnext : (⟨done⟩ : Table α).insert e.1 e.2 = ⟨done ++ [e]⟩ :=
        congrArg Table.mk (put_of_lt hlt e.2)
      rw [List.foldl_cons, hnext]
      rw [← List.singleton_append, ← List.append_assoc] at hall
      rw [ih _ hall, List.append_assoc, List.singleton_append]
  exact hfold [] h

end Shell.Table
