/-!
Tables from names to values, in the order of the names. Names compare by their characters
from left to right, which is also the order of their UTF-8 bytes. Two tables with the same
content are equal.
-/

namespace Lookml

structure Table (α : Type) where
  toList : List (String × α)
  sorted : toList.Pairwise fun left right => left.1 < right.1

namespace Table

variable {α : Type}

instance [DecidableEq α] : DecidableEq (Table α) := fun left right =>
  if h : left.toList = right.toList then
    .isTrue (by cases left; cases right; cases h; rfl)
  else .isFalse fun heq => h (heq ▸ rfl)

def empty : Table α := ⟨[], .nil⟩

/-- The list with a value put under a name, in its place or over the value already
there. -/
def insertInto (name : String) (value : α) : List (String × α) → List (String × α)
  | [] => [(name, value)]
  | entry :: entries =>
      if name < entry.1 then (name, value) :: entry :: entries
      else if entry.1 < name then entry :: insertInto name value entries
      else (name, value) :: entries

theorem mem_insertInto {name : String} {value : α} {entries : List (String × α)}
    {entry : String × α} (h : entry ∈ insertInto name value entries) :
    entry = (name, value) ∨ entry ∈ entries := by
  induction entries with
  | nil => simpa [insertInto] using h
  | cons first entries ih =>
      simp only [insertInto] at h
      split at h
      · simpa using h
      · split at h
        · cases List.mem_cons.mp h with
          | inl heq => exact .inr (heq ▸ List.mem_cons_self)
          | inr hmem =>
              cases ih hmem with
              | inl heq => exact .inl heq
              | inr hold => exact .inr (List.mem_cons_of_mem _ hold)
        · cases List.mem_cons.mp h with
          | inl heq => exact .inl heq
          | inr hmem => exact .inr (List.mem_cons_of_mem _ hmem)

theorem eq_of_not_lt {left right : String} (h : ¬left < right) (h' : ¬right < left) :
    left = right :=
  String.le_antisymm (String.not_lt.mp h') (String.not_lt.mp h)

theorem insertInto_sorted (name : String) (value : α) {entries : List (String × α)}
    (h : entries.Pairwise fun left right => left.1 < right.1) :
    (insertInto name value entries).Pairwise fun left right => left.1 < right.1 := by
  induction entries with
  | nil => exact List.pairwise_singleton _ _
  | cons first entries ih =>
      obtain ⟨hfirst, htail⟩ := List.pairwise_cons.mp h
      simp only [insertInto]
      split
      · rename_i hlt
        refine List.pairwise_cons.mpr ⟨?_, h⟩
        intro entry hmem
        cases List.mem_cons.mp hmem with
        | inl heq => exact heq ▸ hlt
        | inr hrest => exact String.lt_trans hlt (hfirst entry hrest)
      · rename_i hge
        split
        · rename_i hlt
          refine List.pairwise_cons.mpr ⟨?_, ih htail⟩
          intro entry hmem
          cases mem_insertInto hmem with
          | inl heq => exact heq ▸ hlt
          | inr hrest => exact hfirst entry hrest
        · rename_i hle
          have heq : name = first.1 := eq_of_not_lt hge hle
          refine List.pairwise_cons.mpr ⟨?_, htail⟩
          intro entry hmem
          exact heq ▸ hfirst entry hmem

def insert (table : Table α) (name : String) (value : α) : Table α :=
  ⟨insertInto name value table.toList, insertInto_sorted name value table.sorted⟩

def ofList (entries : List (String × α)) : Table α :=
  entries.foldl (fun table entry => table.insert entry.1 entry.2) empty

def get? (table : Table α) (name : String) : Option α :=
  table.toList.lookup name

def contains (table : Table α) (name : String) : Bool := (table.get? name).isSome

def keys (table : Table α) : List String := table.toList.map Prod.fst

def values (table : Table α) : List α := table.toList.map Prod.snd

def size (table : Table α) : Nat := table.toList.length

def isEmpty (table : Table α) : Bool := table.toList.isEmpty

theorem ext {left right : Table α} (h : left.toList = right.toList) : left = right := by
  cases left
  cases right
  cases h
  rfl

@[simp] theorem get?_empty (name : String) : (empty : Table α).get? name = none := rfl

private theorem lookup_insertInto_self (name : String) (value : α)
    (entries : List (String × α)) :
    (insertInto name value entries).lookup name = some value := by
  induction entries with
  | nil => simp [insertInto]
  | cons first entries ih =>
      obtain ⟨key, old⟩ := first
      simp only [insertInto]
      split
      · simp
      · split
        · rename_i hlt
          have hne : (name == key) = false := by
            rw [beq_eq_false_iff_ne]
            intro heq
            exact String.lt_irrefl _ (heq ▸ hlt)
          simp [List.lookup_cons, hne, ih]
        · simp

private theorem lookup_insertInto_of_ne {name other : String} (value : α)
    (entries : List (String × α)) (h : other ≠ name) :
    (insertInto name value entries).lookup other = entries.lookup other := by
  have hne : (other == name) = false := by simpa using h
  induction entries with
  | nil => simp [insertInto, List.lookup_cons, hne]
  | cons first entries ih =>
      obtain ⟨key, old⟩ := first
      simp only [insertInto]
      split
      · simp [List.lookup_cons, hne]
      · rename_i hge
        split
        · simp [List.lookup_cons, ih]
        · rename_i hle
          have heq : name = key := eq_of_not_lt hge hle
          simp [List.lookup_cons, ← heq, hne]

theorem get?_insert (table : Table α) (name other : String) (value : α) :
    (table.insert name value).get? other =
      if other = name then some value else table.get? other := by
  by_cases h : other = name
  · subst h
    simp [get?, insert, lookup_insertInto_self]
  · rw [if_neg h]
    exact lookup_insertInto_of_ne value table.toList h

end Table

/-- Sets of names, in the order of the names. -/
abbrev Names := Table Unit

namespace Names

def ofList (names : List String) : Names :=
  Table.ofList (names.map fun name => (name, ()))

end Names

end Lookml
