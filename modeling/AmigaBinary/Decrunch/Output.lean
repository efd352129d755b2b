import AmigaBinary.Decrunch.BitList

/-!
# Output that grows backwards

All packers here fill their output from its end to its start. The output is the list of the bytes
produced so far, in file order, so that the next byte goes in front; a copy names a byte by its
distance ahead of the byte that is written. What lies ahead of the produced bytes reads as zero.
-/

namespace AmigaBinary.Decrunch

/-- An output of which `remaining` bytes are missing at the front. -/
structure Output where
  remaining : Nat
  produced : Bytes
  deriving DecidableEq, Repr

namespace Output

/-! ## 1. Single bytes -/

/-- An output of `length` bytes, none of them produced. -/
def empty (length : Nat) : Output :=
  ⟨length, []⟩

/-- The output with another byte in front. -/
def push (value : UInt8) (out : Output) : Output :=
  ⟨out.remaining - 1, value :: out.produced⟩

/-- The byte at a distance ahead of the next byte. The next byte itself, at distance 0, and bytes
    behind the produced ones have not been written: they are zero. -/
def ahead (distance : Nat) (out : Output) : UInt8 :=
  match distance with
  | 0 => 0
  | index + 1 => out.produced.getD index 0

/-- An error, if fewer than `count` bytes are missing. -/
def require (codec : Codec) (count : Nat) (out : Output) : Except Error Unit :=
  if count ≤ out.remaining then .ok () else .error (.outputOverrun codec count out.remaining)

/-- A literal byte. -/
def literal (codec : Codec) (value : Nat) (out : Output) : Except Error Output :=
  match out.require codec 1 with
  | .ok () => .ok (out.push (UInt8.ofNat value))
  | .error e => .error e

/-! ## 2. Copies -/

/-- So many bytes, each from the same distance ahead of the place where it goes. -/
def pushCopies (distance : Nat) : Nat → Output → Output
  | 0, out => out
  | count + 1, out => pushCopies distance count (out.push (out.ahead distance))

/-- A copy of `count` bytes from a distance ahead, inside a buffer of `capacity` bytes. The first
    byte is copied from the farthest place, so this one is checked. -/
def copy (codec : Codec) (capacity distance count : Nat) (out : Output) : Except Error Output :=
  match out.require codec count with
  | .error e => .error e
  | .ok () =>
    let source := out.remaining - 1 + distance
    if source < capacity then .ok (out.pushCopies distance count)
    else .error (.copyOutOfRange codec source capacity)

/-! ## 3. Literal runs -/

/-- So many literal bytes from the bits of a stream, each checked when it is written. -/
def literals (codec : Codec) (exhausted : Error) :
    Nat → Output → List Bool → Except Error (Output × List Bool)
  | 0, out, bits => .ok (out, bits)
  | count + 1, out, bits => do
      let (value, bits) ← readBits exhausted 8 bits
      let out ← out.literal codec value
      literals codec exhausted count out bits

/-- A run of literal bytes whose length is checked first. -/
def literalRun (codec : Codec) (exhausted : Error) (count : Nat) (out : Output)
    (bits : List Bool) : Except Error (Output × List Bool) :=
  match out.require codec count with
  | .error e => .error e
  | .ok () => literals codec exhausted count out bits

/-! ## 4. How much is missing afterwards -/

theorem remaining_of_literal {codec : Codec} {value : Nat} {out next : Output}
    (h : out.literal codec value = .ok next) : next.remaining + 1 = out.remaining := by
  unfold literal require at h
  split at h
  · rename_i heq
    split at heq
    · simp only [Except.ok.injEq] at h
      subst h
      simp only [push]
      omega
    · simp at heq
  · simp at h

theorem remaining_pushCopies (distance count : Nat) (out : Output) :
    (out.pushCopies distance count).remaining = out.remaining - count := by
  induction count generalizing out with
  | zero => simp [pushCopies]
  | succ count ih =>
      rw [pushCopies, ih]
      simp only [push]
      omega

/-- A copy writes as many bytes as it says. -/
theorem remaining_of_copy {codec : Codec} {capacity distance count : Nat} {out next : Output}
    (h : out.copy codec capacity distance count = .ok next) :
    next.remaining + count = out.remaining := by
  unfold copy require at h
  split at h
  · simp at h
  · rename_i heq
    split at heq
    · dsimp only at h
      split at h
      · simp only [Except.ok.injEq] at h
        subst h
        rw [remaining_pushCopies]
        omega
      · simp at h
    · simp at heq

/-- A run of literals writes as many bytes as it says. -/
theorem remaining_of_literals {codec : Codec} {exhausted : Error} {count : Nat}
    {out next : Output} {bits rest : List Bool}
    (h : literals codec exhausted count out bits = .ok (next, rest)) :
    next.remaining + count = out.remaining := by
  induction count generalizing out bits with
  | zero =>
      simp only [literals, Except.ok.injEq, Prod.mk.injEq] at h
      rw [h.1, Nat.add_zero]
  | succ count ih =>
      simp only [literals, bind, Except.bind] at h
      split at h
      · simp at h
      · split at h
        · simp at h
        · rename_i o ho
          have h1 := remaining_of_literal ho
          have h2 := ih h
          omega

theorem remaining_of_literalRun {codec : Codec} {exhausted : Error} {count : Nat}
    {out next : Output} {bits rest : List Bool}
    (h : literalRun codec exhausted count out bits = .ok (next, rest)) :
    next.remaining + count = out.remaining := by
  unfold literalRun at h
  split at h
  · simp at h
  · exact remaining_of_literals h

end Output

end AmigaBinary.Decrunch
