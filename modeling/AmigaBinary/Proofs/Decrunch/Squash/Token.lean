import AmigaBinary.Decrunch.Squash
import AmigaBinary.Proofs.Decrunch.Output
import AmigaBinary.Total

/-!
# The tokens of a squashed stream

A squashed stream is a list of tokens behind each other, each of which has one written form
(`Token.bits`) and one effect on the bytes produced so far (`Token.apply`). The decoder reads
exactly these: a step succeeds where a token lies at the front of the stream and fits what is
missing of the output (`step_eq_ok`), and a run where tokens lie there that fill the output
(`expand_eq_ok`).
No token is the start of another one (`bits_inj`).
-/

namespace AmigaBinary.Decrunch.Squash

/-! ## 1. Tokens -/

/-- The shapes of copies. Two, three and four bytes have a shape of their own. -/
inductive CopyShape where
  | two
  | three
  | four
  | many (count : Nat)
  deriving DecidableEq, Repr

namespace CopyShape

/-- The number of bytes that are copied. -/
def count : CopyShape → Nat
  | .two => 2
  | .three => 3
  | .four => 4
  | .many count => count

/-- The bits of the distance. -/
def width : CopyShape → Nat
  | .two => 8
  | .three => 9
  | .four => 10
  | .many _ => 12

/-- What stands in front of the distance. -/
def mark : CopyShape → List Bool
  | .two => [false, true]
  | .three => [true, false, false]
  | .four => [true, false, true]
  | .many count => [true, true, false] ++ highestFirst 8 (count - 1)

end CopyShape

/-- A token. -/
inductive Token where
  /-- Bytes, from the end of the output to its start. -/
  | literals (bytes : Bytes)
  /-- Bytes from a distance ahead of the next byte. -/
  | copy (shape : CopyShape) (distance : Nat)
  deriving DecidableEq, Repr

/-- What stands in front of a run of literal bytes. Runs of up to eight bytes have a short form. -/
def runMark (count : Nat) : List Bool :=
  if count ≤ 8 then [false, false] ++ highestFirst 3 (count - 1)
  else [true, true, true] ++ highestFirst 8 (count - 9)

namespace Token

/-- The number of bytes that a token writes. -/
def length : Token → Nat
  | .literals bytes => bytes.length
  | .copy shape _ => shape.count

/-- The written form of a token. -/
def bits : Token → List Bool
  | .literals bytes => runMark bytes.length ++ byteBits bytes
  | .copy shape distance => shape.mark ++ highestFirst shape.width distance

/-- What the parts of a token fit in. -/
def Valid : Token → Prop
  | .literals bytes => 1 ≤ bytes.length ∧ bytes.length ≤ 264
  | .copy shape distance =>
      1 ≤ shape.count ∧ shape.count ≤ 256 ∧ distance < 2 ^ shape.width

/-- The effect of a token on the bytes produced so far. -/
def apply : Token → Bytes → Bytes
  | .literals bytes, out => bytes.reverse ++ out
  | .copy shape distance, out => copyAhead distance shape.count out

/-- A copy whose first byte is at `remaining` comes from inside of a buffer of `capacity` bytes. -/
def InBuffer (capacity remaining : Nat) : Token → Prop
  | .literals _ => True
  | .copy _ distance => remaining - 1 + distance < capacity

instance (t : Token) : Decidable t.Valid := by
  cases t <;> unfold Valid <;> infer_instance

instance (capacity remaining : Nat) (t : Token) : Decidable (t.InBuffer capacity remaining) := by
  cases t <;> unfold InBuffer <;> infer_instance

theorem Valid.length_pos {t : Token} (h : t.Valid) : 0 < t.length := by
  cases t with
  | literals bytes => exact h.1
  | copy shape distance => exact h.1

end Token

/-- The bytes that tokens produce behind `out`. -/
def applyAll (tokens : List Token) (out : Bytes) : Bytes :=
  tokens.foldl (fun out t => t.apply out) out

/-- The bytes that tokens stand for. -/
def denote (tokens : List Token) : Bytes :=
  applyAll tokens []

/-- The written form of tokens. -/
def tokenBits (tokens : List Token) : List Bool :=
  tokens.flatMap Token.bits

/-- All copies of tokens come from inside of a buffer. The place of a token is as far from the start
    of the output as the tokens from there on are long. -/
def InBuffer (capacity : Nat) : List Token → Prop
  | [] => True
  | t :: rest =>
    t.InBuffer capacity (total Token.length (t :: rest)) ∧ InBuffer capacity rest

instance decidableInBuffer (capacity : Nat) : (tokens : List Token) →
    Decidable (InBuffer capacity tokens)
  | [] => isTrue trivial
  | _ :: rest => @instDecidableAnd _ _ _ (decidableInBuffer capacity rest)

/-! ## 2. Reading a command -/

variable {exhausted : Error}

theorem readCommand_runMark {count : Nat} (h1 : 1 ≤ count) (h264 : count ≤ 264)
    (rest : List Bool) :
    readCommand exhausted (runMark count ++ rest) = .ok (.literals count, rest) := by
  unfold runMark
  split
  · have h3 : readBits exhausted 3 (highestFirst 3 (count - 1) ++ rest)
        = .ok (count - 1, rest) := readBits_eq_ok.2 ⟨by omega, rfl⟩
    simp only [readCommand, List.cons_append, List.nil_append, readBits_one, bind, Except.bind,
      Bool.toNat_false, if_true, h3, Nat.sub_add_cancel h1]
  · have h8 : readBits exhausted 8 (highestFirst 8 (count - 9) ++ rest)
        = .ok (count - 9, rest) := readBits_eq_ok.2 ⟨by omega, rfl⟩
    simp only [readCommand, List.cons_append, List.nil_append, readBits_one, readBits_two, bind,
      Except.bind, Bool.toNat_true, Nat.one_ne_zero, if_false, Nat.mul_one, Nat.reduceAdd, h8]
    rw [Nat.sub_add_cancel (by omega)]

theorem readCommand_mark {shape : CopyShape} {distance : Nat} (h1 : 1 ≤ shape.count)
    (h256 : shape.count ≤ 256) (hd : distance < 2 ^ shape.width) (rest : List Bool) :
    readCommand exhausted (shape.mark ++ (highestFirst shape.width distance ++ rest))
      = .ok (.copy distance shape.count, rest) := by
  have hr : readBits exhausted shape.width (highestFirst shape.width distance ++ rest)
      = .ok (distance, rest) := readBits_eq_ok.2 ⟨hd, rfl⟩
  cases shape with
  | two =>
      simp only [CopyShape.width] at hr
      simp only [readCommand, CopyShape.mark, CopyShape.width, List.cons_append, List.nil_append,
        readBits_one, bind, Except.bind, Bool.toNat_false, Bool.toNat_true, Nat.one_ne_zero,
        if_true, if_false, hr, CopyShape.count]
  | three =>
      simp only [CopyShape.width] at hr
      simp only [readCommand, CopyShape.mark, CopyShape.width, List.cons_append, List.nil_append,
        readBits_one, readBits_two, bind, Except.bind, Bool.toNat_false, Bool.toNat_true,
        Nat.one_ne_zero, if_false, Nat.mul_zero, Nat.add_zero, hr, CopyShape.count]
  | four =>
      simp only [CopyShape.width] at hr
      simp only [readCommand, CopyShape.mark, CopyShape.width, List.cons_append, List.nil_append,
        readBits_one, readBits_two, bind, Except.bind, Bool.toNat_false, Bool.toNat_true,
        Nat.one_ne_zero, if_false, Nat.mul_zero, Nat.zero_add, hr, CopyShape.count]
  | many count =>
      simp only [CopyShape.width] at hr
      simp only [CopyShape.count] at h1 h256
      have hc : readBits exhausted 8 (highestFirst 8 (count - 1)
          ++ (highestFirst 12 distance ++ rest))
          = .ok (count - 1, highestFirst 12 distance ++ rest) :=
        readBits_eq_ok.2 ⟨by omega, rfl⟩
      simp only [readCommand, CopyShape.mark, CopyShape.width, List.cons_append, List.nil_append,
        readBits_one, readBits_two, bind, Except.bind, Bool.toNat_false, Bool.toNat_true,
        Nat.one_ne_zero, if_false, Nat.mul_one, Nat.add_zero, hc, hr, CopyShape.count,
        Nat.sub_add_cancel h1]

/-- The command that a token starts with, and what is behind it: a run has its bytes there. -/
def Token.split (rest : List Bool) : Token → Command × List Bool
  | .literals bytes => (.literals bytes.length, byteBits bytes ++ rest)
  | .copy shape distance => (.copy distance shape.count, rest)

theorem readCommand_bits (exhausted : Error) {t : Token} (hv : t.Valid) (rest : List Bool) :
    readCommand exhausted (t.bits ++ rest) = .ok (t.split rest) := by
  cases t with
  | literals bytes =>
      rw [Token.bits, List.append_assoc]
      exact readCommand_runMark hv.1 hv.2 _
  | copy shape distance =>
      rw [Token.bits, List.append_assoc]
      exact readCommand_mark hv.1 hv.2.1 hv.2.2 rest

/-- **A command is read from the mark of a run or from a copy**, and from nothing else. -/
theorem readCommand_cases {bits rest : List Bool} {command : Command}
    (hr : readCommand exhausted bits = .ok (command, rest)) :
    (∃ count, 1 ≤ count ∧ count ≤ 264 ∧ command = .literals count ∧
      bits = runMark count ++ rest) ∨
    ∃ (shape : CopyShape) (distance : Nat), 1 ≤ shape.count ∧ shape.count ≤ 256 ∧
      distance < 2 ^ shape.width ∧ command = .copy distance shape.count ∧
      bits = shape.mark ++ (highestFirst shape.width distance ++ rest) := by
  obtain ⟨isLong, b1, hv1, rfl, hl⟩ := readBits_bind_eq_ok.1 hr
  obtain rfl | rfl : isLong = 0 ∨ isLong = 1 := by omega
  -- the short run and the short copy have a mark of two bits
  · simp only [if_true] at hl
    obtain ⟨isCopy, b2, hv2, rfl, hk⟩ := readBits_bind_eq_ok.1 hl
    obtain rfl | rfl : isCopy = 0 ∨ isCopy = 1 := by omega
    · simp only [if_true] at hk
      obtain ⟨count, b3, hv3, rfl, hd⟩ := readBits_bind_eq_ok.1 hk
      obtain ⟨rfl, rfl⟩ := Prod.mk.inj (Except.ok.inj hd)
      refine .inl ⟨count + 1, by omega, by omega, rfl, ?_⟩
      rw [runMark, if_pos (by omega), Nat.add_sub_cancel]
      rfl
    · simp only [Nat.one_ne_zero, if_false] at hk
      obtain ⟨distance, b3, hv3, rfl, hd⟩ := readBits_bind_eq_ok.1 hk
      obtain ⟨rfl, rfl⟩ := Prod.mk.inj (Except.ok.inj hd)
      exact .inr ⟨.two, distance, by decide, by decide, hv3, rfl, rfl⟩
  -- the other copies and the long run have a mark of three
  · simp only [Nat.one_ne_zero, if_false] at hl
    obtain ⟨kind, b2, hv2, rfl, hk⟩ := readBits_bind_eq_ok.1 hl
    obtain rfl | rfl | rfl | rfl : kind = 0 ∨ kind = 1 ∨ kind = 2 ∨ kind = 3 := by omega
    · dsimp only at hk
      obtain ⟨distance, b3, hv3, rfl, hd⟩ := readBits_bind_eq_ok.1 hk
      obtain ⟨rfl, rfl⟩ := Prod.mk.inj (Except.ok.inj hd)
      exact .inr ⟨.three, distance, by decide, by decide, hv3, rfl, rfl⟩
    · dsimp only at hk
      obtain ⟨distance, b3, hv3, rfl, hd⟩ := readBits_bind_eq_ok.1 hk
      obtain ⟨rfl, rfl⟩ := Prod.mk.inj (Except.ok.inj hd)
      exact .inr ⟨.four, distance, by decide, by decide, hv3, rfl, rfl⟩
    · dsimp only at hk
      obtain ⟨count, b3, hv3, rfl, hd⟩ := readBits_bind_eq_ok.1 hk
      dsimp only at hd
      obtain ⟨distance, b4, hv4, rfl, he⟩ := readBits_bind_eq_ok.1 hd
      obtain ⟨rfl, rfl⟩ := Prod.mk.inj (Except.ok.inj he)
      exact .inr ⟨.many (count + 1), distance, Nat.succ_pos count, hv3, hv4, rfl, rfl⟩
    · dsimp only at hk
      obtain ⟨count, b3, hv3, rfl, hd⟩ := readBits_bind_eq_ok.1 hk
      obtain ⟨rfl, rfl⟩ := Prod.mk.inj (Except.ok.inj hd)
      refine .inl ⟨count + 9, by omega, by omega, rfl, ?_⟩
      rw [runMark, if_neg (by omega), Nat.add_sub_cancel]
      rfl

/-! ## 3. One token -/

/-- **A step takes one token**, if it fits what is missing of the output and copies from inside of
    the buffer, and fails otherwise. -/
theorem step_eq_ok {capacity : Nat} {out next : Output} {bits rest : List Bool} :
    step exhausted capacity out bits = .ok (next, rest) ↔
      ∃ t : Token, t.Valid ∧ bits = t.bits ++ rest ∧ t.length ≤ out.remaining ∧
        t.InBuffer capacity out.remaining ∧
        next = ⟨out.remaining - t.length, t.apply out.produced⟩ := by
  rw [step, bind_eq_ok]
  constructor
  · rintro ⟨⟨command, b1⟩, hc, h⟩
    rcases readCommand_cases hc with ⟨count, h1, h264, rfl, rfl⟩ |
      ⟨shape, distance, h1, h256, hd, rfl, rfl⟩
    · obtain ⟨bytes, rfl, hr, rfl, rfl⟩ := Output.literals_eq_ok.1 h
      exact ⟨.literals bytes, ⟨h1, h264⟩, (List.append_assoc _ _ _).symm, hr, trivial, rfl⟩
    · obtain ⟨o, ho, he⟩ := map_eq_ok.1 h
      obtain ⟨rfl, rfl⟩ := Prod.mk.inj he
      obtain ⟨hr, hb, rfl⟩ := Output.copy_eq_ok.1 ho
      exact ⟨.copy shape distance, ⟨h1, h256, hd⟩, (List.append_assoc _ _ _).symm, hr, hb, rfl⟩
  · rintro ⟨t, hv, rfl, hr, hb, rfl⟩
    refine ⟨_, readCommand_bits exhausted hv rest, ?_⟩
    cases t with
    | literals bytes => exact Output.literals_eq_ok.2 ⟨bytes, rfl, hr, rfl, rfl⟩
    | copy shape distance => exact map_eq_ok.2 ⟨_, Output.copy_eq_ok.2 ⟨hr, hb, rfl⟩, rfl⟩

/-! ## 4. Many tokens -/

theorem tokenBits_cons (t : Token) (tokens : List Token) :
    tokenBits (t :: tokens) = t.bits ++ tokenBits tokens := rfl

theorem tokenBits_append (front back : List Token) :
    tokenBits (front ++ back) = tokenBits front ++ tokenBits back :=
  List.flatMap_append

theorem applyAll_append (front back : List Token) (out : Bytes) :
    applyAll (front ++ back) out = applyAll back (applyAll front out) :=
  List.foldl_append

theorem Token.length_apply (t : Token) (out : Bytes) :
    (t.apply out).length = t.length + out.length := by
  cases t with
  | literals bytes => simp [Token.apply, Token.length]
  | copy shape distance => exact length_copyAhead distance shape.count out

/-- Tokens produce as many bytes as they are long. -/
theorem length_applyAll (tokens : List Token) (out : Bytes) :
    (applyAll tokens out).length = total Token.length tokens + out.length := by
  induction tokens generalizing out with
  | nil => simp [applyAll]
  | cons t tokens ih =>
      show (applyAll tokens (t.apply out)).length = _
      rw [ih, Token.length_apply, total_cons]
      omega

/-- A step on tokens that fill the output takes the first of them. -/
theorem step_cons {capacity : Nat} {out : Output} {t : Token} {tokens : List Token}
    (hv : t.Valid) (ht : total Token.length (t :: tokens) = out.remaining)
    (hb : InBuffer capacity (t :: tokens)) (rest : List Bool) :
    step exhausted capacity out (tokenBits (t :: tokens) ++ rest)
      = .ok (⟨out.remaining - t.length, t.apply out.produced⟩, tokenBits tokens ++ rest) := by
  refine step_eq_ok.2 ⟨t, hv, ?_, ?_, ?_, rfl⟩
  · rw [tokenBits_cons, List.append_assoc]
  · rw [total_cons] at ht
    omega
  · rw [← ht]
    exact hb.1

theorem expand_of_step {capacity : Nat} {out next : Output} {bits rest : List Bool}
    (h0 : out.remaining ≠ 0) (h : step exhausted capacity out bits = .ok (next, rest)) :
    expand exhausted capacity out bits = expand exhausted capacity next rest := by
  rw [expand, if_neg h0]
  split <;> simp_all

theorem expand_of_step_error {capacity : Nat} {out : Output} {bits : List Bool} {e : Error}
    (h0 : out.remaining ≠ 0) (h : step exhausted capacity out bits = .error e) :
    expand exhausted capacity out bits = .error e := by
  rw [expand, if_neg h0]
  split <;> simp_all

/-- **A run takes the tokens that fill the output**, each where it copies from inside of the buffer,
    and stops behind the last of them. -/
theorem expand_eq_ok {capacity : Nat} {out final : Output} {bits rest : List Bool} :
    expand exhausted capacity out bits = .ok (final, rest) ↔
      ∃ tokens : List Token, (∀ t ∈ tokens, t.Valid) ∧
        total Token.length tokens = out.remaining ∧ InBuffer capacity tokens ∧
        bits = tokenBits tokens ++ rest ∧ final = ⟨0, applyAll tokens out.produced⟩ := by
  induction out, bits using expand.induct exhausted capacity with
  | case1 out bits h0 =>
      rw [expand, if_pos h0]
      constructor
      · intro h
        obtain ⟨rfl, rfl⟩ := Prod.mk.inj (Except.ok.inj h)
        exact ⟨[], by simp, h0.symm, trivial, rfl, by rw [← h0]; rfl⟩
      · rintro ⟨tokens, hv, ht, -, rfl, rfl⟩
        cases tokens with
        | nil => rw [← h0]; rfl
        | cons t tokens =>
            have := (hv t List.mem_cons_self).length_pos
            rw [total_cons] at ht
            omega
  | case2 out bits h0 e he =>
      -- where a token lies at the front of the stream, the step cannot fail
      rw [expand_of_step_error h0 he]
      constructor
      · intro h
        cases h
      · rintro ⟨tokens, hv, ht, hb, rfl, -⟩
        cases tokens with
        | nil => exact absurd ht.symm h0
        | cons t tokens =>
            rw [step_cons (hv t List.mem_cons_self) ht hb] at he
            cases he
  | case3 out bits h0 next rest' hs ih =>
      -- the step takes one token, and it is the first of any tokens that lie there
      rw [expand_of_step h0 hs, ih]
      constructor
      · rintro ⟨tokens, hv, ht, hb, rfl, rfl⟩
        obtain ⟨t, htv, rfl, htl, htb, rfl⟩ := step_eq_ok.1 hs
        have htot : total Token.length (t :: tokens) = out.remaining := by
          rw [total_cons, ht]
          exact Nat.add_sub_cancel' htl
        refine ⟨t :: tokens, List.forall_mem_cons.2 ⟨htv, hv⟩, htot, ⟨?_, hb⟩, ?_, rfl⟩
        · rw [htot]
          exact htb
        · rw [tokenBits_cons, List.append_assoc]
      · rintro ⟨tokens, hv, ht, hb, rfl, rfl⟩
        cases tokens with
        | nil => exact absurd ht.symm h0
        | cons t tokens =>
            rw [step_cons (hv t List.mem_cons_self) ht hb] at hs
            obtain ⟨rfl, rfl⟩ := Prod.mk.inj (Except.ok.inj hs)
            rw [total_cons] at ht
            exact ⟨tokens, fun t h => hv t (List.mem_cons_of_mem _ h), by simp only; omega, hb.2,
              rfl, rfl⟩

/-! ## 5. No token starts another -/

theorem Token.length_bits_copy (shape : CopyShape) (distance : Nat) :
    (Token.copy shape distance).bits.length = shape.mark.length + shape.width := by
  rw [Token.bits, List.length_append, length_highestFirst]

/-- Copies of as many bytes in as many bits have the same shape. -/
theorem CopyShape.eq_of_lengths {a b : CopyShape} (hc : a.count = b.count)
    (hl : a.mark.length + a.width = b.mark.length + b.width) : a = b := by
  cases a <;> cases b <;> simp_all [CopyShape.mark, CopyShape.width, CopyShape.count]

/-- **No token is the start of another one**: a stream begins with one token only. -/
theorem bits_inj {t t' : Token} {rest rest' : List Bool} (hv : t.Valid) (hv' : t'.Valid)
    (h : t.bits ++ rest = t'.bits ++ rest') : t = t' ∧ rest = rest' := by
  have hread := readCommand_bits (.inputExhausted .squash 0) hv rest
  rw [h, readCommand_bits _ hv' rest', Except.ok.injEq] at hread
  have he := hread.symm
  cases t with
  | literals bytes =>
      cases t' with
      | literals bytes' =>
          obtain ⟨hc, hb⟩ := Prod.mk.inj he
          have hl := Command.literals.inj hc
          obtain ⟨hb, hr⟩ := List.append_inj hb (by rw [length_byteBits, length_byteBits, hl])
          rw [byteBits_inj hl hb, hr]
          exact ⟨rfl, rfl⟩
      | copy shape' distance' => cases (Prod.mk.inj he).1
  | copy shape distance =>
      cases t' with
      | literals bytes' => cases (Prod.mk.inj he).1
      | copy shape' distance' =>
          obtain ⟨hc, rfl⟩ := Prod.mk.inj he
          obtain ⟨rfl, hn⟩ := Command.copy.inj hc
          have hl := congrArg List.length (List.append_cancel_right h)
          rw [Token.length_bits_copy, Token.length_bits_copy] at hl
          rw [CopyShape.eq_of_lengths hn hl]
          exact ⟨rfl, rfl⟩

/-- Of two readings of a stream, the longer one goes on where the shorter one ends. -/
theorem tokens_of_longer {tokens longer : List Token} {rest rest' : List Bool}
    (hv : ∀ t ∈ tokens, t.Valid) (hv' : ∀ t ∈ longer, t.Valid)
    (hl : total Token.length tokens ≤ total Token.length longer)
    (h : tokenBits tokens ++ rest = tokenBits longer ++ rest') :
    ∃ more, longer = tokens ++ more ∧ rest = tokenBits more ++ rest' := by
  induction tokens generalizing longer with
  | nil => exact ⟨longer, rfl, h⟩
  | cons t tokens ih =>
      rw [List.forall_mem_cons] at hv
      cases longer with
      | nil =>
          have := hv.1.length_pos
          rw [total_cons, total_nil] at hl
          omega
      | cons t' longer =>
          rw [List.forall_mem_cons] at hv'
          rw [tokenBits_cons, tokenBits_cons, List.append_assoc, List.append_assoc] at h
          obtain ⟨rfl, ht⟩ := bits_inj hv.1 hv'.1 h
          rw [total_cons, total_cons, Nat.add_le_add_iff_left] at hl
          obtain ⟨more, rfl, hr⟩ := ih hv.2 hv'.2 hl ht
          exact ⟨more, rfl, hr⟩

/-! ## 6. Tokens of zero bits -/

/-- One literal zero byte. -/
def zeroByte : Token :=
  .literals [0]

theorem bits_zeroByte : zeroByte.bits = List.replicate 13 false := by
  decide

theorem tokenBits_zeroBytes (count : Nat) :
    tokenBits (List.replicate count zeroByte) = List.replicate (13 * count) false := by
  induction count with
  | zero => rfl
  | succ count ih =>
      rw [List.replicate_succ, tokenBits_cons, ih, bits_zeroByte, List.replicate_append_replicate,
        Nat.mul_add, Nat.add_comm]

theorem highestFirst_zero (width : Nat) : highestFirst width 0 = List.replicate width false := by
  induction width with
  | zero => rfl
  | succ width ih => rw [highestFirst_succ, ih, Nat.zero_testBit, List.replicate_succ]

theorem eq_zero_of_highestFirst {width n : Nat} (hn : n < 2 ^ width)
    (h : ∀ bit ∈ highestFirst width n, bit = false) : n = 0 := by
  refine highestFirst_inj hn (Nat.two_pow_pos width) ?_
  rw [highestFirst_zero]
  exact List.eq_replicate_of_mem h |>.trans (by rw [length_highestFirst])

/-- **A single literal zero byte is the only token that zero bits spell.** -/
theorem eq_zeroByte {t : Token} (hv : t.Valid) (h : ∀ bit ∈ t.bits, bit = false) :
    t = zeroByte := by
  cases t with
  | copy shape distance =>
      have hm : ∀ bit ∈ shape.mark, bit = false := fun bit hb =>
        h bit (List.mem_append_left _ hb)
      cases shape <;> simp [CopyShape.mark] at hm
  | literals bytes =>
      have hm : ∀ bit ∈ runMark bytes.length, bit = false := fun bit hb =>
        h bit (List.mem_append_left _ hb)
      have hb : ∀ bit ∈ byteBits bytes, bit = false := fun bit hb =>
        h bit (List.mem_append_right _ hb)
      unfold runMark at hm
      split at hm
      · have h1 : bytes.length - 1 = 0 := eq_zero_of_highestFirst (by omega) fun bit hb =>
          hm bit (List.mem_append_right _ hb)
        have hp := hv.1
        obtain ⟨byte, rfl⟩ := List.length_eq_one_iff.1 (show bytes.length = 1 by omega)
        have h0 : byte.toNat = 0 := eq_zero_of_highestFirst byte.toNat_lt fun bit hc =>
          hb bit (List.mem_append_left _ hc)
        have hz : byte = 0 := UInt8.toNat_inj.1 h0
        rw [hz, zeroByte]
      · simp at hm

/-- Tokens of zero bits are literal zero bytes. -/
theorem eq_zeroBytes {tokens : List Token} (hv : ∀ t ∈ tokens, t.Valid)
    (h : ∀ bit ∈ tokenBits tokens, bit = false) :
    tokens = List.replicate tokens.length zeroByte := by
  refine List.eq_replicate_of_mem fun t ht => eq_zeroByte (hv t ht) fun bit hb => ?_
  exact h bit (List.mem_flatMap.2 ⟨t, ht, hb⟩)

end AmigaBinary.Decrunch.Squash
