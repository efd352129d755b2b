/-!
# Tables of names

A table gives each of its names one value, and lists the names in ascending order. Main
statements: what a name has after an insertion (`get?_insert`) and after a removal (`get?_erase`),
and that tables which give every name the same are equal (`ext_get?`).
-/

namespace AmigaBinary

/-! ## 1. Rows -/

namespace NameRows

variable {α : Type}

/-- The names of rows ascend, so each occurs once. -/
def Ascending (rows : List (String × α)) : Prop :=
  rows.Pairwise fun a b => a.1 < b.1

/-- Rows with a value for a name, in place of the one that it has. -/
def insert (name : String) (value : α) : List (String × α) → List (String × α)
  | [] => [(name, value)]
  | (other, old) :: rows =>
    if name < other then (name, value) :: (other, old) :: rows
    else if name = other then (name, value) :: rows
    else (other, old) :: insert name value rows

/-- Rows without a name. -/
def erase (name : String) (rows : List (String × α)) : List (String × α) :=
  rows.filter fun row => row.1 ≠ name

/-- The value of a name. -/
def get? (name : String) : List (String × α) → Option α
  | [] => none
  | (other, value) :: rows => if other = name then some value else get? name rows

theorem mem_insert {name : String} {value : α} {row : String × α} {rows : List (String × α)}
    (h : row ∈ insert name value rows) : row = (name, value) ∨ row ∈ rows := by
  induction rows with
  | nil => exact Or.inl (List.mem_singleton.mp h)
  | cons first rows ih =>
      simp only [insert] at h
      split at h
      · rcases List.mem_cons.mp h with rfl | h
        · exact Or.inl rfl
        · exact Or.inr h
      · split at h
        · rcases List.mem_cons.mp h with rfl | h
          · exact Or.inl rfl
          · exact Or.inr (List.mem_cons_of_mem _ h)
        · rcases List.mem_cons.mp h with rfl | h
          · exact Or.inr List.mem_cons_self
          · exact (ih h).imp id (List.mem_cons_of_mem _)

theorem ascending_insert {name : String} {value : α} {rows : List (String × α)}
    (h : Ascending rows) : Ascending (insert name value rows) := by
  induction rows with
  | nil => exact List.pairwise_singleton _ _
  | cons first rows ih =>
      obtain ⟨hfirst, hrows⟩ := List.pairwise_cons.mp h
      simp only [insert]
      split
      · rename_i hlt
        refine List.pairwise_cons.mpr ⟨fun row hrow => ?_, h⟩
        rcases List.mem_cons.mp hrow with rfl | hrow
        · exact hlt
        · exact String.lt_trans hlt (hfirst row hrow)
      · split
        · rename_i heq
          subst heq
          exact List.pairwise_cons.mpr ⟨hfirst, hrows⟩
        · rename_i hnlt hne
          refine List.pairwise_cons.mpr ⟨fun row hrow => ?_, ih hrows⟩
          rcases mem_insert hrow with rfl | hrow
          · exact Std.lt_of_le_of_ne (Std.not_lt.mp hnlt) (Ne.symm hne)
          · exact hfirst row hrow

theorem ascending_erase {name : String} {rows : List (String × α)} (h : Ascending rows) :
    Ascending (erase name rows) :=
  h.filter _

theorem get?_insert {name other : String} {value : α} {rows : List (String × α)} :
    get? other (insert name value rows) = if other = name then some value else get? other rows := by
  induction rows with
  | nil =>
      simp only [insert, get?]
      grind
  | cons first rows ih =>
      simp only [insert]
      split
      · simp only [get?]
        grind
      · split
        · simp only [get?]
          grind
        · simp only [get?, ih]
          grind

theorem get?_erase {name other : String} {rows : List (String × α)} :
    get? other (erase name rows) = if other = name then none else get? other rows := by
  induction rows with
  | nil => simp [erase, get?]
  | cons first rows ih =>
      simp only [erase, List.filter_cons] at ih ⊢
      split
      · simp only [get?, ih]
        grind
      · simp only [get?, ih]
        grind

theorem get?_eq_some_iff {name : String} {value : α} {rows : List (String × α)}
    (h : Ascending rows) : get? name rows = some value ↔ (name, value) ∈ rows := by
  induction rows with
  | nil => simp [get?]
  | cons first rows ih =>
      obtain ⟨hfirst, hrows⟩ := List.pairwise_cons.mp h
      simp only [get?, List.mem_cons]
      split
      · rename_i heq
        constructor
        · intro hv
          exact Or.inl (by rw [← heq, ← Option.some.inj hv])
        · rintro (hv | hv)
          · rw [← hv]
          · have hlt := hfirst _ hv
            exact absurd (heq ▸ hlt) (String.lt_irrefl name)
      · rename_i hne
        rw [ih hrows]
        constructor
        · exact Or.inr
        · rintro (hv | hv)
          · exact absurd (by rw [← hv]) hne
          · exact hv

theorem nodup_of_ascending {rows : List (String × α)} (h : Ascending rows) : rows.Nodup := by
  refine List.Pairwise.imp ?_ h
  rintro _ _ hab rfl
  exact String.lt_irrefl _ hab

theorem eq_of_mem_iff {rows more : List (String × α)} (h : Ascending rows) (hmore : Ascending more)
    (hmem : ∀ row, row ∈ rows ↔ row ∈ more) : rows = more :=
  List.Perm.eq_of_pairwise
    (fun _ _ _ _ hab hba => absurd (String.lt_trans hab hba) (String.lt_irrefl _)) h hmore
    ((List.perm_ext_iff_of_nodup (nodup_of_ascending h) (nodup_of_ascending hmore)).mpr hmem)

end NameRows

/-! ## 2. Tables -/

/-- A table of names. -/
structure NameTable (α : Type) where
  rows : List (String × α)
  ascending : NameRows.Ascending rows
  deriving DecidableEq, Repr

namespace NameTable

variable {α : Type}

/-- The table without names. -/
def empty : NameTable α :=
  ⟨[], List.Pairwise.nil⟩

/-- A table with a value for a name, in place of the one that it has. -/
def insert (table : NameTable α) (name : String) (value : α) : NameTable α :=
  ⟨NameRows.insert name value table.rows, NameRows.ascending_insert table.ascending⟩

/-- A table without a name. -/
def erase (table : NameTable α) (name : String) : NameTable α :=
  ⟨NameRows.erase name table.rows, NameRows.ascending_erase table.ascending⟩

/-- The value of a name. -/
def get? (table : NameTable α) (name : String) : Option α :=
  NameRows.get? name table.rows

/-- The number of names. -/
def size (table : NameTable α) : Nat :=
  table.rows.length

/-- The names in ascending order. -/
def names (table : NameTable α) : List String :=
  table.rows.map (·.1)

/-- A table with the values of a list of pairs; of two pairs with one name, the later counts. -/
def insertAll (table : NameTable α) (pairs : List (String × α)) : NameTable α :=
  pairs.foldl (fun table pair => table.insert pair.1 pair.2) table

@[simp] theorem get?_empty (name : String) : (empty : NameTable α).get? name = none := rfl

theorem get?_insert (table : NameTable α) (name other : String) (value : α) :
    (table.insert name value).get? other = if other = name then some value else table.get? other :=
  NameRows.get?_insert

theorem get?_erase (table : NameTable α) (name other : String) :
    (table.erase name).get? other = if other = name then none else table.get? other :=
  NameRows.get?_erase

theorem get?_eq_some_iff {table : NameTable α} {name : String} {value : α} :
    table.get? name = some value ↔ (name, value) ∈ table.rows :=
  NameRows.get?_eq_some_iff table.ascending

/-- **Tables that give every name the same are equal.** -/
theorem ext_get? {a b : NameTable α} (h : ∀ name, a.get? name = b.get? name) : a = b := by
  obtain ⟨rows, hrows⟩ := a
  obtain ⟨more, hmore⟩ := b
  have hmem : ∀ row, row ∈ rows ↔ row ∈ more := fun row => by
    have hname := h row.1
    simp only [get?] at hname
    rw [← NameRows.get?_eq_some_iff hrows, ← NameRows.get?_eq_some_iff hmore, hname]
  have := NameRows.eq_of_mem_iff hrows hmore hmem
  subst this
  rfl

end NameTable

end AmigaBinary
