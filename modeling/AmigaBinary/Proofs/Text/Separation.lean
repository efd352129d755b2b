import AmigaBinary.Text.Hexadecimal

/-!
# Text that can be taken apart

A list of texts with a separator between them can be taken apart if the separator is in none of
them (`Text.intercalate_inj`). A number has one numeral (`Text.toDigits_inj`), and no character is
in a numeral that is not a digit.
-/

namespace AmigaBinary.Text

/-! ## 1. Characters -/

/-- The character is not in the text. -/
def Lacks (s : String) (c : Char) : Prop :=
  c ∉ s.toList

instance (s : String) (c : Char) : Decidable (Lacks s c) :=
  inferInstanceAs (Decidable (c ∉ s.toList))

variable {s t : String} {c : Char} {n : Nat}

@[simp] theorem lacks_append : Lacks (s ++ t) c ↔ Lacks s c ∧ Lacks t c := by
  simp [Lacks]

@[simp] theorem lacks_singleton {d : Char} : Lacks (String.singleton d) c ↔ c ≠ d := by
  simp [Lacks]

theorem lacks_ofList {l : List Char} : Lacks (String.ofList l) c ↔ c ∉ l := by
  rw [Lacks, String.toList_ofList]

theorem lacks_intercalate {l : List String} (hs : Lacks s c) (h : ∀ t ∈ l, Lacks t c) :
    Lacks (s.intercalate l) c := by
  induction l with
  | nil => simp [Lacks, String.intercalate_nil]
  | cons t l ih =>
      have ht := h t (List.mem_cons_self ..)
      have hl := ih fun u hu => h u (List.mem_cons_of_mem _ hu)
      by_cases hne : l = []
      · subst hne
        rwa [String.intercalate_singleton]
      · rw [String.intercalate_cons_of_ne_nil hne]
        exact lacks_append.2 ⟨lacks_append.2 ⟨ht, hs⟩, hl⟩

/-! ## 2. Numerals -/

/-- The digits of a number are those of the number without its last digit, and the last digit. -/
theorem exists_toDigits {b : Nat} (hb : 1 < b) (n : Nat) :
    ∃ front, Nat.toDigits b n = front ++ [Nat.digitChar (n % b)] ∧
      front = if n < b then [] else Nat.toDigits b (n / b) := by
  refine ⟨_, ?_, rfl⟩
  rw [Nat.toDigits_eq_if hb]
  split
  · rename_i h
    rw [Nat.mod_eq_of_lt h, List.nil_append]
  · rfl

theorem digitChar_inj {m n : Nat} (hm : m < 16) (hn : n < 16)
    (h : Nat.digitChar m = Nat.digitChar n) : m = n := by
  have hall : ∀ m < 16, ∀ n < 16, Nat.digitChar m = Nat.digitChar n → m = n := by decide
  exact hall m hm n hn h

/-- **A number has one numeral.** -/
theorem toDigits_inj {b m n : Nat} (hb : 1 < b) (hle : b ≤ 16)
    (h : Nat.toDigits b m = Nat.toDigits b n) : m = n := by
  induction m using Nat.strongRecOn generalizing n with
  | ind m ih =>
    obtain ⟨front, hm, hfront⟩ := exists_toDigits hb m
    obtain ⟨front', hn, hfront'⟩ := exists_toDigits hb n
    rw [hm, hn] at h
    obtain ⟨rfl, hlast⟩ := List.append_inj' h rfl
    have hmod : m % b = n % b := by
      have hmb := Nat.mod_lt m (Nat.lt_of_succ_lt hb)
      have hnb := Nat.mod_lt n (Nat.lt_of_succ_lt hb)
      exact digitChar_inj (by omega) (by omega) (List.singleton_inj.1 hlast)
    rw [hfront] at hfront'
    split at hfront' <;> split at hfront'
    · rename_i hm hn
      rwa [Nat.mod_eq_of_lt hm, Nat.mod_eq_of_lt hn] at hmod
    · exact absurd hfront'.symm Nat.toDigits_ne_nil
    · exact absurd hfront' Nat.toDigits_ne_nil
    · rename_i hm _
      have hdiv := ih (m / b) (Nat.div_lt_self (by omega) hb) hfront'
      rw [← Nat.div_add_mod m b, ← Nat.div_add_mod n b, hdiv, hmod]

theorem hex_inj {m n : Nat} : hex m = hex n ↔ m = n := by
  constructor
  · exact fun h => toDigits_inj (by decide) (by decide) (String.ofList_injective h)
  · rintro rfl
    rfl

/-- **There are only digits in a numeral.** -/
theorem not_mem_toDigits {b : Nat} (hb : 1 < b) (hc : ∀ d, Nat.digitChar d ≠ c) :
    c ∉ Nat.toDigits b n := by
  induction n using Nat.strongRecOn with
  | ind n ih =>
    obtain ⟨front, hn, hfront⟩ := exists_toDigits hb n
    rw [hn, List.mem_append, List.mem_singleton, not_or]
    refine ⟨?_, (hc _).symm⟩
    rw [hfront]
    split
    · exact List.not_mem_nil
    · exact ih (n / b) (Nat.div_lt_self (by omega) hb)

/-! ## 3. Parts between separators -/

/-- **Texts without the separator are told from the text that they make up.** -/
theorem intercalate_inj {l m : List String} (hl : ∀ t ∈ l, Lacks t c) (hm : ∀ t ∈ m, Lacks t c)
    (hl' : l ≠ []) (hm' : m ≠ [])
    (h : (String.singleton c).intercalate l = (String.singleton c).intercalate m) : l = m := by
  have hlist := congrArg String.toList h
  rw [String.toList_intercalate, String.toList_intercalate, String.toList_singleton] at hlist
  have hsplit := congrArg (List.splitOn c) hlist
  rw [List.splitOn_intercalate c (List.forall_mem_map.2 hl) (by simpa using hl'),
    List.splitOn_intercalate c (List.forall_mem_map.2 hm) (by simpa using hm')] at hsplit
  exact (List.map_inj_right fun _ _ => String.toList_injective).1 hsplit

end AmigaBinary.Text
