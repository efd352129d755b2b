import AmigaBinary.Cursor
import AmigaBinary.Proofs.Success
import AmigaBinary.Proofs.Words

/-!
# What a cursor reads

`Reads` tells that a cursor goes from one place to another over certain bytes. A read succeeds
exactly if the cursor goes over the bytes of what was read (`word32_eq_ok`, `take_eq_ok`), and going
over bytes one behind the other is going over all of them (`reads_append`). So a format is read by
the equations of its parts, in both directions.
-/

namespace AmigaBinary.Cursor

variable {c d next : Cursor}

/-! ## 1. Going over bytes -/

/-- A cursor goes over `bytes` to the next one. -/
structure Reads (c : Cursor) (bytes : Bytes) (next : Cursor) : Prop where
  rest : c.rest = bytes ++ next.rest
  position : next.position = c.position + bytes.length

theorem reads_nil : c.Reads [] next ↔ c = next := by
  constructor
  · intro ⟨hr, hp⟩
    cases c
    cases next
    cases hr
    cases hp
    rfl
  · intro h
    subst h
    exact ⟨rfl, rfl⟩

/-- **Going over bytes behind bytes is going over all of them.** -/
theorem reads_append {front bytes : Bytes} :
    c.Reads (front ++ bytes) next ↔ ∃ d, c.Reads front d ∧ d.Reads bytes next := by
  constructor
  · intro ⟨hr, hp⟩
    refine ⟨⟨bytes ++ next.rest, c.position + front.length⟩, ⟨?_, rfl⟩, ⟨rfl, ?_⟩⟩
    · rw [hr, List.append_assoc]
    · rw [hp, List.length_append, Nat.add_assoc]
  · rintro ⟨d, ⟨hr, hp⟩, ⟨hr', hp'⟩⟩
    refine ⟨?_, ?_⟩
    · rw [hr, hr', List.append_assoc]
    · rw [hp', hp, List.length_append, Nat.add_assoc]

theorem Reads.trans {front bytes : Bytes} (h : c.Reads front d) (h' : d.Reads bytes next) :
    c.Reads (front ++ bytes) next :=
  reads_append.2 ⟨d, h, h'⟩

/-- What is gone over from the start of a file is its front. -/
theorem reads_start {data bytes : Bytes} :
    (start data).Reads bytes next ↔ data = bytes ++ next.rest ∧ next.position = bytes.length := by
  constructor
  · intro ⟨hr, hp⟩
    exact ⟨hr, by rw [hp]; exact Nat.zero_add _⟩
  · intro ⟨hr, hp⟩
    exact ⟨hr, by rw [hp]; exact (Nat.zero_add _).symm⟩

/-- What is gone over from an offset on stands there. -/
theorem reads_drop {data bytes : Bytes} {offset : Nat} :
    (⟨data.drop offset, offset⟩ : Cursor).Reads bytes next ↔
      (∃ rest, data.drop offset = bytes ++ rest) ∧
        next = ⟨data.drop (offset + bytes.length), offset + bytes.length⟩ := by
  constructor
  · intro ⟨hr, hp⟩
    refine ⟨⟨next.rest, hr⟩, ?_⟩
    rw [Bytes.drop_behind hr, ← hp]
  · rintro ⟨⟨rest, hr⟩, rfl⟩
    refine ⟨?_, rfl⟩
    rw [Bytes.drop_behind hr]
    exact hr

/-! ## 2. Reads -/

/-- **A word is read exactly if its bytes are gone over.** -/
theorem word32_eq_ok {w : UInt32} :
    c.word32 = .ok (w, next) ↔ c.Reads (Bytes.ofWord32 w) next := by
  obtain ⟨rest, position⟩ := c
  constructor
  · intro h
    match rest, h with
    | x :: y :: z :: t :: tail, h =>
        obtain ⟨rfl, rfl⟩ := Prod.mk.inj (Except.ok.inj h)
        exact ⟨by rw [Bytes.ofWord32_word32]; rfl, rfl⟩
    | [], h | [_], h | [_, _], h | [_, _, _], h => cases h
  · intro ⟨hr, hp⟩
    obtain ⟨behind, position'⟩ := next
    dsimp only at hr hp
    subst hr hp
    exact congrArg (fun v => Except.ok (v, _)) (Bytes.word32_ofWord32 w)

theorem word16_eq_ok {w : UInt16} :
    c.word16 = .ok (w, next) ↔ c.Reads (Bytes.ofWord16 w) next := by
  obtain ⟨rest, position⟩ := c
  constructor
  · intro h
    match rest, h with
    | x :: y :: tail, h =>
        obtain ⟨rfl, rfl⟩ := Prod.mk.inj (Except.ok.inj h)
        exact ⟨by rw [Bytes.ofWord16_word16]; rfl, rfl⟩
    | [], h | [_], h => cases h
  · intro ⟨hr, hp⟩
    obtain ⟨behind, position'⟩ := next
    dsimp only at hr hp
    subst hr hp
    exact congrArg (fun v => Except.ok (v, _)) (Bytes.word16_ofWord16 w)

theorem take_eq_ok {n : Nat} {bytes : Bytes} :
    c.take n = .ok (bytes, next) ↔ bytes.length = n ∧ c.Reads bytes next := by
  unfold take
  constructor
  · intro h
    split at h
    · rename_i hn
      obtain ⟨rfl, rfl⟩ := Prod.mk.inj (Except.ok.inj h)
      have hlen : (c.rest.take n).length = n := List.length_take_of_le hn
      exact ⟨hlen, (List.take_append_drop n c.rest).symm, by rw [hlen]⟩
    · cases h
  · rintro ⟨rfl, hr, hp⟩
    obtain ⟨behind, position⟩ := next
    dsimp only at hr hp
    rw [hr, hp, if_pos (by rw [List.length_append]; omega), List.take_left, List.drop_left]

theorem take_of_le {n : Nat} (h : n ≤ c.rest.length) :
    c.take n = .ok (c.rest.take n, ⟨c.rest.drop n, c.position + n⟩) :=
  if_pos h

/-- A computation that starts with a word goes on behind it. -/
theorem word32_bind_eq_ok {β : Type} {f : UInt32 × Cursor → Except Error β} {b : β} :
    (c.word32 >>= f) = .ok b ↔ ∃ w d, c.Reads (Bytes.ofWord32 w) d ∧ f (w, d) = .ok b := by
  rw [bind_eq_ok]
  constructor
  · rintro ⟨⟨w, d⟩, hr, h⟩
    exact ⟨w, d, word32_eq_ok.1 hr, h⟩
  · rintro ⟨w, d, hr, h⟩
    exact ⟨(w, d), word32_eq_ok.2 hr, h⟩

end AmigaBinary.Cursor
