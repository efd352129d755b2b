import AmigaBinary.Bytes

/-!
# Cursors

A cursor is a place in a file: the bytes from there on, and the offset for messages. What a read
takes is exactly the front of those bytes, and a read that fails takes nothing.
-/

namespace AmigaBinary

/-- A place in a file. -/
structure Cursor where
  rest : Bytes
  position : Nat
  deriving DecidableEq, Repr

namespace Cursor

/-! ## 1. Reads -/

/-- The start of a file. -/
def start (data : Bytes) : Cursor :=
  ⟨data, 0⟩

/-- The next 16-bit word. -/
def word16 (cursor : Cursor) : Except Error (UInt16 × Cursor) :=
  match cursor.rest with
  | a :: b :: rest => .ok (Bytes.word16 a b, ⟨rest, cursor.position + 2⟩)
  | rest => .error (.truncated cursor.position 2 rest.length)

/-- The next 32-bit word. -/
def word32 (cursor : Cursor) : Except Error (UInt32 × Cursor) :=
  match cursor.rest with
  | a :: b :: c :: d :: rest => .ok (Bytes.word32 a b c d, ⟨rest, cursor.position + 4⟩)
  | rest => .error (.truncated cursor.position 4 rest.length)

/-- The next `length` bytes. -/
def take (length : Nat) (cursor : Cursor) : Except Error (Bytes × Cursor) :=
  if length ≤ cursor.rest.length then
    .ok (cursor.rest.take length, ⟨cursor.rest.drop length, cursor.position + length⟩)
  else .error (.truncated cursor.position length cursor.rest.length)

/-! ## 2. What a read leaves -/

/-- A 16-bit word takes two bytes. -/
theorem length_of_word16 {c next : Cursor} {w : UInt16} (h : c.word16 = .ok (w, next)) :
    c.rest.length = next.rest.length + 2 := by
  obtain ⟨rest, position⟩ := c
  match rest, h with
  | a :: b :: tail, h =>
      simp only [word16, Except.ok.injEq, Prod.mk.injEq] at h
      obtain ⟨-, rfl⟩ := h
      simp
  | [], h | [_], h => simp [word16] at h

/-- A 32-bit word takes four bytes. -/
theorem length_of_word32 {c next : Cursor} {w : UInt32} (h : c.word32 = .ok (w, next)) :
    c.rest.length = next.rest.length + 4 := by
  obtain ⟨rest, position⟩ := c
  match rest, h with
  | a :: b :: d :: e :: tail, h =>
      simp only [word32, Except.ok.injEq, Prod.mk.injEq] at h
      obtain ⟨-, rfl⟩ := h
      simp
  | [], h | [_], h | [_, _], h | [_, _, _], h => simp [word32] at h

/-- A read of bytes takes as many as were asked for. -/
theorem length_of_take {c next : Cursor} {n : Nat} {bytes : Bytes}
    (h : c.take n = .ok (bytes, next)) : c.rest.length = next.rest.length + n := by
  unfold take at h
  split at h
  · rename_i hn
    simp only [Except.ok.injEq, Prod.mk.injEq] at h
    obtain ⟨-, rfl⟩ := h
    simp only [List.length_drop]
    omega
  · simp at h

end Cursor

end AmigaBinary
