import Lookml.Table
import Mathlib.Data.List.Nodup

/-!
Tables as sets of entries: what is found under a name is an entry, what is put in is there
besides the rest, and the names of a table are known once it is known which they are.
-/

namespace Lookml.Table

variable {α : Type}

theorem mem_of_get? {table : Table α} {name : String} {value : α}
    (h : table.get? name = some value) : (name, value) ∈ table.toList := by
  obtain ⟨front, back, hsplit, _⟩ := List.lookup_eq_some_iff.mp h
  rw [hsplit]
  exact List.mem_append_right _ List.mem_cons_self

theorem get?_of_mem {table : Table α} {name : String} {value : α}
    (h : (name, value) ∈ table.toList) : table.get? name = some value := by
  obtain ⟨front, back, hsplit⟩ := List.append_of_mem h
  refine List.lookup_eq_some_iff.mpr ⟨front, back, hsplit, fun entry hentry => ?_⟩
  have hsorted := table.sorted
  rw [hsplit] at hsorted
  have hlt : entry.1 < name :=
    (List.pairwise_append.mp hsorted).2.2 entry hentry _ List.mem_cons_self
  have hne : name ≠ entry.1 := fun heq => String.lt_irrefl _ (heq ▸ hlt)
  simpa using hne

theorem mem_insert {table : Table α} {name : String} {value : α} {entry : String × α}
    (h : entry ∈ (table.insert name value).toList) : entry = (name, value) ∨ entry ∈ table.toList :=
  mem_insertInto h

theorem mem_ofList {entries : List (String × α)} {entry : String × α}
    (h : entry ∈ (ofList entries).toList) : entry ∈ entries := by
  have hfold (table : Table α) (entries : List (String × α))
      (hentry : entry ∈
        (entries.foldl (fun table entry => table.insert entry.1 entry.2) table).toList) :
      entry ∈ table.toList ∨ entry ∈ entries := by
    induction entries generalizing table with
    | nil => exact .inl hentry
    | cons first entries ih =>
        rcases ih _ hentry with hmem | hmem
        · rcases mem_insert hmem with rfl | hold
          · exact .inr List.mem_cons_self
          · exact .inl hold
        · exact .inr (List.mem_cons_of_mem _ hmem)
  rcases hfold empty entries h with hmem | hmem
  · cases hmem
  · exact hmem

theorem forall_mem_ofList {entries : List (String × α)} {holds : String × α → Prop}
    (h : ∀ entry ∈ entries, holds entry) : ∀ entry ∈ (ofList entries).toList, holds entry :=
  fun entry hentry => h entry (mem_ofList hentry)

theorem contains_iff_get? {table : Table α} {name : String} :
    table.contains name = true ↔ ∃ value, table.get? name = some value :=
  Option.isSome_iff_exists

theorem contains_iff_mem_keys {table : Table α} {name : String} :
    table.contains name = true ↔ name ∈ table.keys := by
  simp only [contains, get?, keys, List.lookup_isSome_iff, beq_iff_eq, List.mem_map]
  constructor
  · rintro ⟨entry, hentry, rfl⟩
    exact ⟨entry, hentry, rfl⟩
  · rintro ⟨entry, hentry, rfl⟩
    exact ⟨entry, hentry, rfl⟩

theorem keys_sorted (table : Table α) : table.keys.Pairwise fun left right => left < right :=
  List.pairwise_map.mpr table.sorted

theorem keys_nodup (table : Table α) : table.keys.Nodup :=
  table.keys_sorted.imp fun hlt => fun heq => String.lt_irrefl _ (heq ▸ hlt)

/-- Names in order are the names of a table if they are the ones that it contains. -/
theorem keys_eq_iff (table : Table α) {names : List String}
    (hsorted : names.Pairwise fun left right => left < right) :
    table.keys = names ↔ ∀ name, table.contains name = true ↔ name ∈ names := by
  constructor
  · rintro rfl name
    exact contains_iff_mem_keys
  · intro h
    have hdistinct : names.Nodup := hsorted.imp fun hlt => fun heq => String.lt_irrefl _ (heq ▸ hlt)
    have hperm : table.keys.Perm names :=
      (List.perm_ext_iff_of_nodup table.keys_nodup hdistinct).mpr
        fun name => contains_iff_mem_keys.symm.trans (h name)
    refine hperm.eq_of_pairwise ?_ table.keys_sorted hsorted
    intro left right _ _ hlt hgt
    exact absurd (String.lt_trans hlt hgt) (String.lt_irrefl _)

theorem contains_insert {table : Table α} {name other : String} {value : α} :
    (table.insert name value).contains other = true ↔
      other = name ∨ table.contains other = true := by
  rw [contains, get?_insert]
  split
  · simp [*]
  · simp [*, contains]

theorem contains_ofList {entries : List (String × α)} {name : String} :
    (ofList entries).contains name = true ↔ name ∈ entries.map Prod.fst := by
  have hfold (table : Table α) (entries : List (String × α)) :
      (entries.foldl (fun table entry => table.insert entry.1 entry.2) table).contains name = true ↔
        table.contains name = true ∨ name ∈ entries.map Prod.fst := by
    induction entries generalizing table with
    | nil => simp
    | cons first entries ih =>
        rw [List.foldl_cons, ih, contains_insert, List.map_cons, List.mem_cons, or_assoc,
          or_left_comm]
  rw [ofList, hfold]
  simp [contains]

/-- Where no name comes twice, what is found in a table of entries are these entries. -/
theorem get?_ofList {entries : List (String × α)} (hdistinct : (entries.map Prod.fst).Nodup)
    {name : String} {value : α} :
    (ofList entries).get? name = some value ↔ (name, value) ∈ entries := by
  constructor
  · exact fun h => mem_ofList (mem_of_get? h)
  · intro hmem
    have hcontains : (ofList entries).contains name = true :=
      contains_ofList.mpr (List.mem_map.mpr ⟨_, hmem, rfl⟩)
    obtain ⟨found, hfound⟩ := contains_iff_get?.mp hcontains
    have hsame : (name, found) = (name, value) :=
      List.inj_on_of_nodup_map hdistinct (mem_ofList (mem_of_get? hfound)) hmem rfl
    rw [hfound, (Prod.mk.inj hsame).2]

theorem eq_of_get? {left right : Table α} (h : ∀ name, left.get? name = right.get? name) :
    left = right := by
  have hmem : ∀ entry, entry ∈ left.toList ↔ entry ∈ right.toList := fun (name, value) => by
    constructor
    · exact fun hleft => mem_of_get? ((h name).symm.trans (get?_of_mem hleft))
    · exact fun hright => mem_of_get? ((h name).trans (get?_of_mem hright))
  have hdistinct (table : Table α) : table.toList.Nodup :=
    table.sorted.imp fun hlt => fun heq => String.lt_irrefl _ (heq ▸ hlt)
  have hperm := (List.perm_ext_iff_of_nodup (hdistinct left) (hdistinct right)).mpr hmem
  refine ext (hperm.eq_of_pairwise ?_ left.sorted right.sorted)
  intro first second _ _ hlt hgt
  exact absurd (String.lt_trans hlt hgt) (String.lt_irrefl _)

/-! A table is filled again from its entries. -/

theorem insertInto_last {name : String} {value : α} {entries : List (String × α)}
    (h : ∀ entry ∈ entries, entry.1 < name) :
    insertInto name value entries = entries ++ [(name, value)] := by
  induction entries with
  | nil => rfl
  | cons first entries ih =>
      obtain ⟨hfirst, hentries⟩ := List.forall_mem_cons.mp h
      have hnot : ¬name < first.1 := fun hlt => String.lt_irrefl _ (String.lt_trans hlt hfirst)
      rw [insertInto, if_neg hnot, if_pos hfirst, ih hentries, List.cons_append]

theorem toList_foldl_insert {table : Table α} {entries : List (String × α)}
    (h : (table.toList ++ entries).Pairwise fun left right => left.1 < right.1) :
    (entries.foldl (fun table entry => table.insert entry.1 entry.2) table).toList =
      table.toList ++ entries := by
  induction entries generalizing table with
  | nil => exact (List.append_nil _).symm
  | cons first entries ih =>
      have hbefore : ∀ entry ∈ table.toList, entry.1 < first.1 := fun entry hmem =>
        (List.pairwise_append.mp h).2.2 entry hmem first List.mem_cons_self
      have hinsert : (table.insert first.1 first.2).toList = table.toList ++ [first] :=
        insertInto_last hbefore
      rw [List.append_cons, ← hinsert] at h ⊢
      exact ih h

theorem ofList_toList (table : Table α) : ofList table.toList = table :=
  ext (toList_foldl_insert table.sorted)

/-- Steps that make one entry each and put it into a part of a state make all entries and
put them there, where no name comes twice. -/
theorem foldlM_make {σ ε ι : Type} (put : Table α → σ) (key : ι → String)
    (make : ι → Except ε (String × α)) {step : σ → ι → Except ε σ} {items : List ι}
    {table : Table α}
    (hstep : ∀ item ∈ items, ∀ table : Table α, table.contains (key item) = false →
      step (put table) item = (make item).map fun entry => put (table.insert entry.1 entry.2))
    (hkey : ∀ item ∈ items, ∀ entry, make item = .ok entry → entry.1 = key item)
    (hdistinct : (items.map key).Nodup)
    (hfresh : ∀ item ∈ items, table.contains (key item) = false) :
    items.foldlM step (put table) = (items.mapM make).map fun entries =>
      put (entries.foldl (fun table entry => table.insert entry.1 entry.2) table) := by
  induction items generalizing table with
  | nil => rfl
  | cons first items ih =>
      obtain ⟨hfirst, hitems⟩ := List.forall_mem_cons.mp hstep
      obtain ⟨hkeyFirst, hkeyItems⟩ := List.forall_mem_cons.mp hkey
      obtain ⟨hnever, hdistinct⟩ := List.nodup_cons.mp hdistinct
      obtain ⟨hfreshFirst, hfreshItems⟩ := List.forall_mem_cons.mp hfresh
      rw [List.foldlM_cons, List.mapM_cons, hfirst table hfreshFirst]
      cases hmade : make first with
      | error error => rfl
      | ok entry =>
          have hfreshNext : ∀ item ∈ items,
              (table.insert entry.1 entry.2).contains (key item) = false := fun item hitem => by
            rw [Bool.eq_false_iff, ne_eq, contains_insert, not_or, hkeyFirst entry hmade]
            refine ⟨fun heq => hnever ?_, Bool.eq_false_iff.mp (hfreshItems item hitem)⟩
            exact heq ▸ List.mem_map.mpr ⟨item, hitem, rfl⟩
          refine (ih hitems hkeyItems hdistinct hfreshNext).trans ?_
          cases items.mapM make <;> rfl

/-- Steps that put one entry each into a part of a state put all of them there, where no
name comes twice. -/
theorem foldlM_fill {σ ε : Type} {put : Table α → σ} {step : σ → String × α → Except ε σ}
    {entries : List (String × α)} {table : Table α}
    (hstep : ∀ entry ∈ entries, ∀ table : Table α, table.contains entry.1 = false →
      step (put table) entry = .ok (put (table.insert entry.1 entry.2)))
    (hdistinct : (entries.map Prod.fst).Nodup)
    (hfresh : ∀ entry ∈ entries, table.contains entry.1 = false) :
    entries.foldlM step (put table) =
      .ok (put (entries.foldl (fun table entry => table.insert entry.1 entry.2) table)) := by
  have hmake : entries.mapM .ok = (.ok entries : Except ε (List (String × α))) :=
    List.mapM_pure.trans (congrArg Except.ok (List.map_id entries))
  have hkey : ∀ entry ∈ entries, ∀ made, .ok entry = (.ok made : Except ε (String × α)) →
      made.1 = entry.1 := fun _ _ _ hmade => congrArg Prod.fst (Except.ok.inj hmade).symm
  rw [foldlM_make put Prod.fst .ok hstep hkey hdistinct hfresh, hmake]
  rfl

theorem foldlM_refill {σ ε : Type} (put : Table α → σ) {step : σ → String × α → Except ε σ}
    {table : Table α}
    (hstep : ∀ entry ∈ table.toList, ∀ table : Table α, table.contains entry.1 = false →
      step (put table) entry = .ok (put (table.insert entry.1 entry.2))) :
    table.toList.foldlM step (put empty) = .ok (put table) := by
  rw [foldlM_fill hstep table.keys_nodup fun _ _ => rfl]
  exact congrArg (Except.ok ∘ put) table.ofList_toList

end Lookml.Table

namespace Lookml.Names

theorem ofList_keys (names : Names) : ofList names.keys = names := by
  have hentries : names.keys.map (fun name => (name, ())) = names.toList := by
    rw [Table.keys, List.map_map]
    exact List.map_id' names.toList
  rw [ofList, hentries]
  exact Table.ofList_toList names

theorem contains_ofList {names : List String} {name : String} :
    (ofList names).contains name = true ↔ name ∈ names := by
  rw [ofList, Table.contains_ofList, List.map_map]
  simp

theorem eq_of_contains {names names' : Names}
    (h : ∀ name, names.contains name = true ↔ names'.contains name = true) : names = names' := by
  have hkeys : names.keys = names'.keys := (names.keys_eq_iff names'.keys_sorted).mpr fun name =>
    (h name).trans Table.contains_iff_mem_keys
  rw [← ofList_keys names, hkeys, ofList_keys]

end Lookml.Names
