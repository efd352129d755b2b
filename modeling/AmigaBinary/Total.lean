/-!
# Totals

The total of a measure over a list, such as the length of all sections of a routine.
-/

namespace AmigaBinary

/-- The sum of a measure over a list. -/
def total {α : Type} (measure : α → Nat) : List α → Nat
  | [] => 0
  | a :: rest => measure a + total measure rest

variable {α : Type} (measure : α → Nat)

@[simp] theorem total_nil : total measure [] = 0 := rfl

@[simp] theorem total_cons (a : α) (rest : List α) :
    total measure (a :: rest) = measure a + total measure rest := rfl

@[simp] theorem total_append (front back : List α) :
    total measure (front ++ back) = total measure front + total measure back := by
  induction front with
  | nil => simp
  | cons a front ih =>
      simp only [List.cons_append, total_cons, ih]
      omega

end AmigaBinary
