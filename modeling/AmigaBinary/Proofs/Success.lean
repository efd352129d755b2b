import AmigaBinary.Error
import Mathlib.Data.List.Forall2

/-!
# Computations that succeed or fail

What a sequence of computations answers with, it answers with through the answers of its parts, and
it fails as the first part that fails. The statements about sequences are equivalences: they take a
success, or a failure, apart and put one together.
-/

namespace AmigaBinary

variable {ε α β : Type}

theorem bind_eq_ok {x : Except ε α} {f : α → Except ε β} {b : β} :
    (x >>= f) = .ok b ↔ ∃ a, x = .ok a ∧ f a = .ok b := by
  cases x with
  | error e => simp [bind, Except.bind]
  | ok a => simp [bind, Except.bind]

/-- A sequence fails with its first part, or with the rest of it. -/
theorem bind_eq_error {x : Except ε α} {f : α → Except ε β} {e : ε} :
    (x >>= f) = .error e ↔ x = .error e ∨ ∃ a, x = .ok a ∧ f a = .error e := by
  cases x with
  | error e' => simp [bind, Except.bind]
  | ok a => simp [bind, Except.bind]

theorem map_eq_ok {x : Except ε α} {f : α → β} {b : β} :
    x.map f = .ok b ↔ ∃ a, x = .ok a ∧ f a = b := by
  cases x with
  | error e => simp [Except.map]
  | ok a => simp [Except.map]

/-- What happens to errors does not count for a success. -/
theorem mapError_eq_ok {ε' : Type} {x : Except ε α} {f : ε → ε'} {a : α} :
    x.mapError f = .ok a ↔ x = .ok a := by
  cases x with
  | error e =>
      constructor
      · intro h
        cases h
      · intro h
        cases h
  | ok b =>
      constructor
      · intro h
        rw [Except.ok.inj h]
      · intro h
        rw [Except.ok.inj h]
        rfl

theorem exists_of_isOk {x : Except ε α} (h : x.isOk = true) : ∃ a, x = .ok a := by
  cases x with
  | error e => cases h
  | ok a => exact ⟨a, rfl⟩

theorem eq_ok_of_mem_toOption {x : Except ε α} {a : α} (h : a ∈ x.toOption) : x = .ok a := by
  cases x with
  | error e => cases h
  | ok b => rw [Option.some.inj h]

/-- What does not succeed fails. -/
theorem exists_error {x : Except ε α} (h : ∀ a, x ≠ .ok a) : ∃ e, x = .error e := by
  cases x with
  | error e => exact ⟨e, rfl⟩
  | ok a => exact absurd rfl (h a)

/-- A row of inputs has a row of answers exactly if each input has an answer. -/
theorem exists_forall₂_iff {R : α → β → Prop} {inputs : List α} :
    (∃ answers, List.Forall₂ R inputs answers) ↔ ∀ input ∈ inputs, ∃ answer, R input answer := by
  induction inputs with
  | nil => simp
  | cons input inputs ih =>
      rw [List.forall_mem_cons, ← ih]
      constructor
      · intro ⟨answers, h⟩
        cases h with
        | cons hfirst hrest => exact ⟨⟨_, hfirst⟩, _, hrest⟩
      · intro ⟨⟨answer, hfirst⟩, answers, hrest⟩
        exact ⟨answer :: answers, .cons hfirst hrest⟩

end AmigaBinary
