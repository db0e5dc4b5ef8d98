/-
**Finite maps on names.**

A map is the list of its entries in increasing order of their names, so two maps with the same
entries are equal and the entries come out sorted.

Main definitions:

* `NameMap` — entries with strictly increasing names;
* `NameMap.get?`, `insert`, `ofList` — look up, write, and build.

Main result:

* `NameMap.get?_insert` — a look-up after a write.
-/

set_option autoImplicit false

namespace BagEquiv

/-- A finite map from names to values. -/
structure NameMap (α : Type) where
  entries : List (String × α)
  sorted : entries.Pairwise fun a b => a.1 < b.1
deriving DecidableEq

namespace NameMap

variable {α : Type}

@[ext] theorem ext {m n : NameMap α} (h : m.entries = n.entries) : m = n := by
  cases m; cases n; cases h; rfl

def empty : NameMap α := ⟨[], .nil⟩

instance : Inhabited (NameMap α) := ⟨empty⟩

/-- The value of the first entry with a name. -/
def lookup (name : String) : List (String × α) → Option α
  | [] => none
  | (k, v) :: rest => if k = name then some v else lookup name rest

/-- The value a name is mapped to. -/
def get? (m : NameMap α) (name : String) : Option α := lookup name m.entries

def contains (m : NameMap α) (name : String) : Bool := (m.get? name).isSome

/-- An entry put in its place, instead of one with the same name. -/
def place (name : String) (value : α) : List (String × α) → List (String × α)
  | [] => [(name, value)]
  | (k, v) :: rest =>
      if name < k then (name, value) :: (k, v) :: rest
      else if name = k then (name, value) :: rest
      else (k, v) :: place name value rest

theorem mem_place {name : String} {value : α} {es : List (String × α)} {e : String × α}
    (h : e ∈ place name value es) : e = (name, value) ∨ e ∈ es := by
  induction es with
  | nil => exact .inl (by simpa [place] using h)
  | cons x rest ih =>
      obtain ⟨k, v⟩ := x
      unfold place at h
      split at h
      · simpa using h
      · split at h
        · rcases List.mem_cons.1 h with h | h
          · exact .inl h
          · exact .inr (List.mem_cons_of_mem _ h)
        · rcases List.mem_cons.1 h with h | h
          · exact .inr (by simp [h])
          · rcases ih h with h | h
            · exact .inl h
            · exact .inr (List.mem_cons_of_mem _ h)

theorem lt_of_not_lt_of_ne {a b : String} (h : ¬ a < b) (hne : a ≠ b) : b < a :=
  Std.lt_of_le_of_ne (Std.not_lt.1 h) (Ne.symm hne)

theorem sorted_place (name : String) (value : α) {es : List (String × α)}
    (h : es.Pairwise fun a b => a.1 < b.1) :
    (place name value es).Pairwise fun a b => a.1 < b.1 := by
  induction es with
  | nil => simp [place]
  | cons x rest ih =>
      obtain ⟨k, v⟩ := x
      rw [List.pairwise_cons] at h
      unfold place
      split
      · rename_i hlt
        refine List.pairwise_cons.2 ⟨?_, List.pairwise_cons.2 h⟩
        intro e he
        rcases List.mem_cons.1 he with rfl | he
        · exact hlt
        · exact String.lt_trans hlt (h.1 e he)
      · rename_i hlt
        split
        · rename_i heq
          subst heq
          exact List.pairwise_cons.2 h
        · rename_i hne
          refine List.pairwise_cons.2 ⟨?_, ih h.2⟩
          intro e he
          rcases mem_place he with rfl | he
          · exact lt_of_not_lt_of_ne hlt hne
          · exact h.1 e he

/-- The map with a name mapped to a value. -/
def insert (m : NameMap α) (name : String) (value : α) : NameMap α :=
  ⟨place name value m.entries, sorted_place name value m.sorted⟩

/-- The map of a list of entries, of which the last with a name counts. -/
def ofList (es : List (String × α)) : NameMap α :=
  es.foldl (fun m e => m.insert e.1 e.2) empty

def keys (m : NameMap α) : List String := m.entries.map Prod.fst

theorem lookup_place (name : String) (value : α) (es : List (String × α)) (k : String) :
    lookup k (place name value es) = if k = name then some value else lookup k es := by
  induction es with
  | nil => by_cases h : name = k <;> simp [place, lookup, h, eq_comm]
  | cons x rest ih =>
      obtain ⟨k', v⟩ := x
      unfold place
      split
      · by_cases h : name = k <;> simp [lookup, h, eq_comm]
      · split
        · rename_i heq
          subst heq
          by_cases h : name = k <;> simp [lookup, h, eq_comm]
        · rename_i hne
          by_cases h : k' = k
          · subst h
            simp [lookup, Ne.symm hne]
          · simp [lookup, h, ih]

@[simp] theorem get?_empty (k : String) : (empty : NameMap α).get? k = none := rfl

/-- A look-up after a write. -/
theorem get?_insert (m : NameMap α) (name : String) (value : α) (k : String) :
    (m.insert name value).get? k = if k = name then some value else m.get? k :=
  lookup_place name value m.entries k

end NameMap

end BagEquiv
