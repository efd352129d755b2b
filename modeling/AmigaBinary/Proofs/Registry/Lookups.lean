import AmigaBinary.Registry.Definition
import Mathlib.Data.List.Nodup

/-!
# What a name has in a table that was changed

Of several pairs with one name, the last that is put in counts (`get?_insertAll`), a name that is
taken out has nothing (`get?_eraseAll`), and a new name has what the old one had (`get?_rename`).
What a definition makes of the routines of its base follows from these (`get?_updateRoutines`). A
table of pairs with different names has exactly these pairs (`get?_ofPairs`, `size_ofPairs`). A name
that is put in or taken out changes the number of names by one (`size_insert`, `size_erase`).
-/

namespace AmigaBinary

namespace NameTable

variable {α : Type} {table : NameTable α} {pairs : List (String × α)} {name : String} {value : α}

/-! ## 1. Several names -/

theorem insertAll_cons (pair : String × α) :
    table.insertAll (pair :: pairs) = (table.insert pair.1 pair.2).insertAll pairs := rfl

/-- Of several pairs with one name, the last counts. -/
theorem get?_insertAll : (table.insertAll pairs).get? name =
    (pairs.reverse.lookup name).or (table.get? name) := by
  induction pairs generalizing table with
  | nil => rfl
  | cons pair pairs ih =>
      obtain ⟨first, value⟩ := pair
      rw [insertAll_cons, ih, get?_insert, List.reverse_cons, List.lookup_append, Option.or_assoc]
      congr 1
      by_cases h : name = first
      · simp [h]
      · simp [List.lookup_cons, h, beq_false_of_ne h]

theorem get?_eraseAll {names : List String} : (names.foldl NameTable.erase table).get? name =
    if name ∈ names then none else table.get? name := by
  induction names generalizing table with
  | nil => simp
  | cons first names ih =>
      rw [List.foldl_cons, ih, get?_erase]
      by_cases h : name = first <;> simp [h]

theorem mem_of_lookup (h : pairs.lookup name = some value) : (name, value) ∈ pairs := by
  obtain ⟨front, back, hpairs, -⟩ := List.lookup_eq_some_iff.1 h
  rw [hpairs]
  exact List.mem_append_right _ List.mem_cons_self

/-- Where the names differ, each has the value that it stands with. -/
theorem lookup_eq_some_iff (h : (pairs.map (·.1)).Nodup) :
    pairs.lookup name = some value ↔ (name, value) ∈ pairs := by
  constructor
  · exact mem_of_lookup
  · intro hmem
    rw [List.lookup_eq_some_iff]
    obtain ⟨front, back, rfl⟩ := List.append_of_mem hmem
    refine ⟨front, back, rfl, fun pair hpair => ?_⟩
    rw [List.map_append, List.nodup_append] at h
    have hne : pair.1 ≠ name :=
      h.2.2 _ (List.mem_map_of_mem hpair) _ (List.mem_map_of_mem List.mem_cons_self)
    simpa using hne.symm

theorem get?_ofPairs (h : (pairs.map (·.1)).Nodup) :
    (empty.insertAll pairs).get? name = some value ↔ (name, value) ∈ pairs := by
  have hreverse : (pairs.reverse.map (·.1)).Nodup := by
    rw [List.map_reverse]
    exact List.nodup_reverse.2 h
  rw [get?_insertAll, get?_empty, Option.or_none, lookup_eq_some_iff hreverse, List.mem_reverse]

theorem size_ofPairs (h : (pairs.map (·.1)).Nodup) :
    (empty.insertAll pairs).size = pairs.length := by
  have hrows := NameRows.nodup_of_ascending (empty.insertAll pairs).ascending
  refine ((List.perm_ext_iff_of_nodup hrows h.of_map).2 ?_).length_eq
  intro row
  rw [← get?_eq_some_iff, get?_ofPairs h]

/-! ## 2. Names and how many there are -/

theorem mem_names_iff : name ∈ table.names ↔ ∃ value, table.get? name = some value := by
  simp [names, get?_eq_some_iff]

theorem get?_eq_none_iff : table.get? name = none ↔ name ∉ table.names := by
  rw [mem_names_iff, Option.eq_none_iff_forall_ne_some, not_exists]

theorem mem_names_congr {other : NameTable α} (h : table.get? name = other.get? name) :
    name ∈ table.names ↔ name ∈ other.names := by
  rw [mem_names_iff, mem_names_iff, h]

theorem nodup_names (table : NameTable α) : table.names.Nodup := by
  refine List.pairwise_map.2 (table.ascending.imp fun hlt heq => ?_)
  rw [heq] at hlt
  exact String.lt_irrefl _ hlt

@[simp] theorem length_names (table : NameTable α) : table.names.length = table.size :=
  List.length_map _

theorem mem_names_insert {other : String} :
    other ∈ (table.insert name value).names ↔ other = name ∨ other ∈ table.names := by
  simp only [mem_names_iff, get?_insert]
  by_cases h : other = name <;> simp [h]

theorem mem_names_erase {other : String} :
    other ∈ (table.erase name).names ↔ other ≠ name ∧ other ∈ table.names := by
  simp only [mem_names_iff, get?_erase]
  by_cases h : other = name <;> simp [h]

theorem size_insert (h : name ∉ table.names) :
    (table.insert name value).size = table.size + 1 := by
  have hnames : (table.insert name value).names.Perm (name :: table.names) :=
    (List.perm_ext_iff_of_nodup (nodup_names _) (List.nodup_cons.2 ⟨h, nodup_names _⟩)).2
      fun other => by rw [mem_names_insert, List.mem_cons]
  simpa using hnames.length_eq

theorem size_erase (h : name ∈ table.names) : (table.erase name).size + 1 = table.size := by
  have hnames : (table.erase name).names.Perm (table.names.erase name) :=
    (List.perm_ext_iff_of_nodup (nodup_names _) ((nodup_names _).erase _)).2
      fun other => by rw [mem_names_erase, (nodup_names table).mem_erase_iff]
  have hlength := hnames.length_eq
  have hpos := List.length_pos_of_mem h
  rw [List.length_erase_of_mem h] at hlength
  simp only [length_names] at hlength hpos
  omega

theorem mem_names_eraseAll {erased : List String} :
    name ∈ (erased.foldl NameTable.erase table).names ↔ name ∉ erased ∧ name ∈ table.names := by
  simp only [mem_names_iff, get?_eraseAll]
  by_cases h : name ∈ erased <;> simp [h]

theorem mem_names_insertAll :
    name ∈ (table.insertAll pairs).names ↔ name ∈ pairs.map (·.1) ∨ name ∈ table.names := by
  induction pairs generalizing table with
  | nil => simp [insertAll]
  | cons pair pairs ih =>
      rw [insertAll_cons, ih, mem_names_insert, List.map_cons, List.mem_cons]
      tauto

/-- A row of a table was put in last under its name, or it was there before and no other is. -/
theorem mem_insertAll_iff : (name, value) ∈ (table.insertAll pairs).rows ↔
    pairs.reverse.lookup name = some value ∨
      name ∉ pairs.map (·.1) ∧ (name, value) ∈ table.rows := by
  have hnone : pairs.reverse.lookup name = none ↔ name ∉ pairs.map (·.1) := by
    simp only [List.lookup_eq_none_iff, List.mem_reverse, List.mem_map, not_exists, not_and,
      bne_iff_ne]
    exact forall₂_congr fun pair _ => ne_comm
  rw [← get?_eq_some_iff, ← get?_eq_some_iff, get?_insertAll, Option.or_eq_some_iff, hnone]

theorem mem_of_insertAll {pair : String × α} (h : pair ∈ (table.insertAll pairs).rows) :
    pair ∈ pairs ∨ pair ∈ table.rows := by
  rcases mem_insertAll_iff.1 h with hlookup | ⟨-, hmem⟩
  · exact Or.inl (List.mem_reverse.1 (mem_of_lookup hlookup))
  · exact Or.inr hmem

end NameTable

namespace LibraryDefinition

/-! ## 3. The tables of a definition -/

/-- Numbers with the one of an old name under the new name. -/
def afterRenaming (numbers : String → Option UInt16) (pair : String × String) (name : String) :
    Option UInt16 :=
  if numbers pair.1 = none then numbers name
  else if name = pair.2 then numbers pair.1
  else if name = pair.1 then none
  else numbers name

/-- The numbers of the routines of a library, given those of its base. -/
def numbersOver (definition : LibraryDefinition) (inherited : String → Option UInt16)
    (name : String) : Option UInt16 :=
  let kept := fun name => if name ∈ definition.removed then none else inherited name
  let renamed := definition.renamed.foldl afterRenaming kept
  (definition.routines.reverse.lookup name).or (renamed name)

/-- The other names of the aliases of a library, given those of its base. -/
def originalsOver (definition : LibraryDefinition) (inherited : String → Option String)
    (name : String) : Option String :=
  (definition.same.reverse.lookup name).or (inherited name)

variable {definition : LibraryDefinition}

theorem get?_rename {table : NameTable UInt16} {old new : String} :
    (rename table old new).get? = afterRenaming table.get? (old, new) := by
  funext name
  unfold rename afterRenaming
  cases hold : table.get? old with
  | none => simp
  | some value => simp [NameTable.get?_insert, NameTable.get?_erase]

theorem get?_renameAll {table : NameTable UInt16} {pairs : List (String × String)} :
    (pairs.foldl (fun table pair => rename table pair.1 pair.2) table).get? =
      pairs.foldl afterRenaming table.get? := by
  induction pairs generalizing table with
  | nil => rfl
  | cons pair pairs ih => rw [List.foldl_cons, ih, get?_rename, List.foldl_cons]

/-- **The routines of a library are those of its base, without the removed ones, each with its new
    name, and overridden by those of its definition.** -/
theorem get?_updateRoutines {routines : NameTable UInt16} :
    (definition.updateRoutines routines).get? = definition.numbersOver routines.get? := by
  have hkept : (definition.removed.foldl NameTable.erase routines).get? =
      fun name => if name ∈ definition.removed then none else routines.get? name := by
    funext name
    exact NameTable.get?_eraseAll
  funext name
  rw [updateRoutines, NameTable.get?_insertAll, get?_renameAll, hkept]
  rfl

theorem get?_updateSame {same : NameTable String} :
    (definition.updateSame same).get? = definition.originalsOver same.get? := by
  funext name
  exact NameTable.get?_insertAll

end LibraryDefinition

end AmigaBinary
