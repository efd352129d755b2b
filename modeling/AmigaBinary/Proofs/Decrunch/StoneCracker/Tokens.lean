import AmigaBinary.Proofs.Decrunch.StoneCracker.Reader
import Mathlib.Data.Nat.Bitwise

/-!
# Reading tokens with masks

The machine takes the fields of a token apart with masks and single bits, and computes the widths of
distances from the one that the file gives for the longest of them. As long as that one is 10 to 14,
no width falls below zero, and each command is read as from the stream
(`Machine.readCommand_refines`).
-/

namespace AmigaBinary.Decrunch.StoneCracker

open Checked

/-! ## 1. Masks -/

/-- A single bit of a number is set if the bits up to it make at least its place value. -/
theorem and_two_pow_ne_zero_iff (n k : Nat) : n &&& 2 ^ k ≠ 0 ↔ 2 ^ k ≤ n % 2 ^ (k + 1) := by
  have hpos := Nat.two_pow_pos k
  have hlt := Nat.mod_lt n hpos
  have hsplit := eq_highest_add (Nat.mod_lt n (Nat.two_pow_pos (k + 1)))
  rw [Nat.testBit_mod_two_pow, decide_eq_true (Nat.lt_succ_self k), Bool.true_and,
    Nat.mod_mod_of_dvd n (Nat.pow_dvd_pow 2 (Nat.le_succ k))] at hsplit
  rw [Nat.and_two_pow, hsplit]
  cases n.testBit k with
  | true => simp
  | false =>
      rw [Bool.toNat_false, Nat.zero_mul, Nat.zero_add]
      omega

/-- Where the higher one of two bits is not set, both of them are what the lower one is. -/
theorem and_or_ne_zero_iff {n high : Nat} (h : ¬ n &&& high ≠ 0) (low : Nat) :
    n &&& (high ||| low) ≠ 0 ↔ n &&& low ≠ 0 := by
  rw [Nat.and_or_distrib_left, not_not.1 h, Nat.zero_or]

/-- The number of literal bytes is the lowest bit of the token above four bits more. -/
theorem literalsCount_eq (token : Nat) {value : Nat} (h : value < 2 ^ 4) :
    (token <<< 4 ||| value) &&& 0x1F = token % 2 * 2 ^ 4 + value := by
  have hfive := Nat.and_two_pow_sub_one_eq_mod (token * 2 ^ 4 + value) 5
  rw [← Nat.shiftLeft_add_eq_or_of_lt h, Nat.shiftLeft_eq,
    show (0x1F : Nat) = 2 ^ 5 - 1 by decide, hfive]
  omega

theorem shortCount_eq (token : Nat) :
    (if token &&& 0x40 ≠ 0 then 3 else 2) = token % 0x80 / 0x40 + 2 := by
  have hflag : token &&& 0x40 ≠ 0 ↔ 0x40 ≤ token % 0x80 := and_two_pow_ne_zero_iff token 6
  split <;> omega

theorem mediumCount_eq (token : Nat) :
    ((token &&& 0x30) >>> 4) + 4 = token % 0x40 / 0x10 + 4 := by
  have htwo : token >>> 4 &&& 0x03 = token >>> 4 % 0x04 :=
    Nat.and_two_pow_sub_one_eq_mod (token >>> 4) 2
  rw [Nat.shiftRight_and_distrib, show 0x30 >>> 4 = 0x03 by decide, htwo,
    Nat.shiftRight_eq_div_pow]
  omega

theorem longCount_eq {token : Nat} (hlow : 0x120 ≤ token) (hhigh : token < 0x140) :
    ((token &&& 0x1E) >>> 1) + 8 = (token - 0x120) / 2 + 8 := by
  have hfour : token >>> 1 &&& 0x0F = token >>> 1 % 0x10 :=
    Nat.and_two_pow_sub_one_eq_mod (token >>> 1) 4
  rw [Nat.shiftRight_and_distrib, show 0x1E >>> 1 = 0x0F by decide, hfour,
    Nat.shiftRight_eq_div_pow]
  omega

namespace Machine

/-! ## 2. Fields of tokens -/

section Tokens

variable (data : Bytes)

/-- A distance from 544 on. -/
def far (high extra : Nat) (r : Reader) : Checked (Nat × Reader) := do
  let (value, r) ← r.bitsBelow data high extra
  pure (value + 544, r)

/-- A distance from 32 on. -/
def middle (high count : Nat) (r : Reader) : Checked (Nat × Reader) := do
  let (value, r) ← r.bitsBelow data high count
  pure (value + 32, r)

/-- The distance of a copy of two or three bytes. -/
def shortDistance (eff token : Nat) (r : Reader) : Checked (Nat × Reader) :=
  if token &&& 0x20 ≠ 0 then do
    let extra ← subtract eff 5
    far data (token &&& 0x1F) extra r
  else if token &&& 0x30 ≠ 0 then r.bitsBelow data (token &&& 0x0F) 1
  else middle data (token &&& 0x0F) 5 r

/-- The distance of a copy of four to seven bytes. -/
def mediumDistance (eff token : Nat) (r : Reader) : Checked (Nat × Reader) :=
  if token &&& 0x08 ≠ 0 then do
    let extra ← subtract eff 3
    far data (token &&& 0x07) extra r
  else if token &&& 0x0C ≠ 0 then r.bitsBelow data (token &&& 0x03) 3
  else middle data (token &&& 0x03) 7 r

/-- The distance of a copy of 8 to 22 bytes. -/
def longDistance (eff token : Nat) (r : Reader) : Checked (Nat × Reader) :=
  if token &&& 0x01 ≠ 0 then do
    let (value, r) ← r.bits data eff
    pure (value + 544, r)
  else do
    let (value, r) ← r.bits data 6
    if value &&& 0x20 ≠ 0 then pure (value &&& 0x1F, r) else middle data value 4 r

/-- The distance of a copy of 23 bytes or more. -/
def longestDistance (eff : Nat) (r : Reader) : Checked (Nat × Reader) := do
  let (value, r) ← r.bits data 7
  if value &&& 0x40 ≠ 0 then do
    let extra ← subtract eff 6
    far data (value &&& 0x3F) extra r
  else if value &&& 0x20 ≠ 0 then pure (value &&& 0x1F, r)
  else middle data value 4 r

/-- Groups of eight bits are added to a length up to the first one that is not all ones. There are
    `limit` groups at most. -/
def groups : Nat → Nat → Nat → Reader → Checked (Nat × Reader)
  | 0, _, _, _ => fault
  | limit + 1, length, group, r => do
    let total := min maxLength (length + group)
    if group = 0xFF then
      let (next, r) ← r.bits data 8
      groups limit total next r
    else pure (total, r)

/-- The length of a copy of 23 bytes or more, of which `group` was just read. There are no more
    groups than bits. -/
def longest (length group : Nat) (r : Reader) : Checked (Nat × Reader) :=
  groups data (r.bitsLeft + 1) length group r

/-- The command at the front of the stream. -/
def readCommand (eff : Nat) (r : Reader) : Checked (Command × Reader) := do
  let (token, r) ← r.bits data 9
  if token < 0x100 then pure (.literal token, r)
  else if token = 0x13E ∨ token = 0x13F then
    let (value, r) ← r.bits data 4
    pure (.literals (((token <<< 4 ||| value) &&& 0x1F) + 14), r)
  else if 0x180 ≤ token then
    let (distance, r) ← shortDistance data eff token r
    pure (.copy distance (if token &&& 0x40 ≠ 0 then 3 else 2), r)
  else if 0x140 ≤ token then
    let (distance, r) ← mediumDistance data eff token r
    pure (.copy distance (((token &&& 0x30) >>> 4) + 4), r)
  else if 0x120 ≤ token then
    let (distance, r) ← longDistance data eff token r
    pure (.copy distance (((token &&& 0x1E) >>> 1) + 8), r)
  else
    let (group, r) ← r.bitsBelow data (token &&& 0x1F) 3
    let (count, r) ← longest data 23 group r
    let (distance, r) ← longestDistance data eff r
    pure (.copy distance count, r)

end Tokens

/-! ## 3. Tokens and the stream -/

section Tokens

variable {data : Bytes} {odd eff : Nat} {r : Reader} {stream : List Bool}

theorem far_refines (hr : r.Holds data odd stream) (high : Nat) {extra : Nat} (h1 : 1 ≤ extra)
    (h16 : extra ≤ 16) : Refines (Reader.Reads data odd) (far data high extra r)
      (readFar (exhaustedAt odd) high extra stream) :=
  (hr.bitsBelow high h1 h16).bind fun _ _ hp => .ok ⟨congrArg (· + 544) hp.1, hp.2⟩

theorem middle_refines (hr : r.Holds data odd stream) (high : Nat) {count : Nat} (h1 : 1 ≤ count)
    (h16 : count ≤ 16) : Refines (Reader.Reads data odd) (middle data high count r)
      (readMiddle (exhaustedAt odd) high count stream) :=
  (hr.bitsBelow high h1 h16).bind fun _ _ hp => .ok ⟨congrArg (· + 32) hp.1, hp.2⟩

/-- A distance of at most 9 bits below a value, or of four bits more. -/
theorem flagged_refines (hr : r.Holds data odd stream) {value : Nat} (hv : value < 0x40) :
    Refines (Reader.Reads data odd)
      (if value &&& 0x20 ≠ 0 then pure (value &&& 0x1F, r) else middle data value 4 r)
      (if 0x20 ≤ value then .ok (value - 0x20, stream)
        else readMiddle (exhaustedAt odd) value 4 stream) := by
  have hflag : value &&& 0x20 ≠ 0 ↔ 0x20 ≤ value % 0x40 := and_two_pow_ne_zero_iff value 5
  have hfive : value &&& 0x1F = value % 0x20 := Nat.and_two_pow_sub_one_eq_mod value 5
  rw [Nat.mod_eq_of_lt hv] at hflag
  by_cases h5 : 0x20 ≤ value
  · rw [if_pos (hflag.2 h5), if_pos h5, hfive, show value % 0x20 = value - 0x20 by omega]
    exact .ok ⟨rfl, hr⟩
  · rw [if_neg (mt hflag.1 h5), if_neg h5]
    exact middle_refines hr _ (by decide) (by decide)

theorem readLongest_eq (exhausted : Error) (length group : Nat) (bits : List Bool) :
    readLongest exhausted length group bits = if group = 0xFF then (do
      let (next, rest) ← readBits exhausted 8 bits
      readLongest exhausted (min maxLength (length + group)) next rest)
    else .ok (min maxLength (length + group), bits) := by
  rw [readLongest]
  cases readBits exhausted 8 bits <;> rfl

theorem groups_refines (hr : r.Holds data odd stream) (length group : Nat) {limit : Nat}
    (hlimit : stream.length < limit) :
    Refines (Reader.Reads data odd) (groups data limit length group r)
      (readLongest (exhaustedAt odd) length group stream) := by
  induction limit generalizing r stream length group with
  | zero => omega
  | succ limit ih =>
      rw [groups, readLongest_eq]
      by_cases hall : group = 0xFF
      · rw [if_pos hall, if_pos hall]
        refine (hr.bits (by decide) (by decide)).and_ok.bind fun p q hp => ?_
        obtain ⟨⟨hvalue, hr'⟩, hread⟩ := hp
        -- each group takes bits from the stream
        have hshort := length_of_readBits hread
        dsimp only
        rw [hvalue]
        exact ih hr' _ _ (by omega)
      · rw [if_neg hall, if_neg hall]
        exact .ok ⟨rfl, hr⟩

/-- **A length that goes on and on ends with the file.** -/
theorem longest_refines (hr : r.Holds data odd stream) (length group : Nat) :
    Refines (Reader.Reads data odd) (longest data length group r)
      (readLongest (exhaustedAt odd) length group stream) :=
  groups_refines hr length group (Nat.lt_succ_of_le hr.length_stream)

variable (hlow : 10 ≤ eff) (hhigh : eff ≤ 14)
include hlow hhigh

theorem shortDistance_refines (hr : r.Holds data odd stream) (token : Nat) :
    Refines (Reader.Reads data odd) (shortDistance data eff token r)
      (readShortDistance (exhaustedAt odd) eff (token % 0x40) stream) := by
  have hfar : token &&& 0x20 ≠ 0 ↔ 0x20 ≤ token % 0x40 := and_two_pow_ne_zero_iff token 5
  have hnear : token &&& 0x10 ≠ 0 ↔ 0x10 ≤ token % 0x20 := and_two_pow_ne_zero_iff token 4
  have hfive : token &&& 0x1F = token % 0x20 := Nat.and_two_pow_sub_one_eq_mod token 5
  have hfour : token &&& 0x0F = token % 0x10 := Nat.and_two_pow_sub_one_eq_mod token 4
  unfold shortDistance readShortDistance
  by_cases h5 : token &&& 0x20 ≠ 0
  · have h := hfar.1 h5
    rw [if_pos h5, if_pos h, subtract_of_le (by omega), pure_bind, hfive,
      show token % 0x20 = token % 0x40 - 0x20 by omega]
    exact far_refines hr _ (by omega) (by omega)
  · have h := mt hfar.2 h5
    have hpair : token &&& 0x30 ≠ 0 ↔ 0x10 ≤ token % 0x40 := by
      rw [show (0x30 : Nat) = 0x20 ||| 0x10 by decide, and_or_ne_zero_iff h5, hnear]
      omega
    rw [if_neg h5, if_neg h, hfour]
    by_cases h4 : 0x10 ≤ token % 0x40
    · rw [if_pos (hpair.2 h4), if_pos h4, show token % 0x10 = token % 0x40 - 0x10 by omega]
      exact hr.bitsBelow _ (by decide) (by decide)
    · rw [if_neg (mt hpair.1 h4), if_neg h4, show token % 0x10 = token % 0x40 by omega]
      exact middle_refines hr _ (by decide) (by decide)

theorem mediumDistance_refines (hr : r.Holds data odd stream) (token : Nat) :
    Refines (Reader.Reads data odd) (mediumDistance data eff token r)
      (readMediumDistance (exhaustedAt odd) eff (token % 0x10) stream) := by
  have hfar : token &&& 0x08 ≠ 0 ↔ 0x08 ≤ token % 0x10 := and_two_pow_ne_zero_iff token 3
  have hnear : token &&& 0x04 ≠ 0 ↔ 0x04 ≤ token % 0x08 := and_two_pow_ne_zero_iff token 2
  have hthree : token &&& 0x07 = token % 0x08 := Nat.and_two_pow_sub_one_eq_mod token 3
  have htwo : token &&& 0x03 = token % 0x04 := Nat.and_two_pow_sub_one_eq_mod token 2
  unfold mediumDistance readMediumDistance
  by_cases h3 : token &&& 0x08 ≠ 0
  · have h := hfar.1 h3
    rw [if_pos h3, if_pos h, subtract_of_le (by omega), pure_bind, hthree,
      show token % 0x08 = token % 0x10 - 0x08 by omega]
    exact far_refines hr _ (by omega) (by omega)
  · have h := mt hfar.2 h3
    have hpair : token &&& 0x0C ≠ 0 ↔ 0x04 ≤ token % 0x10 := by
      rw [show (0x0C : Nat) = 0x08 ||| 0x04 by decide, and_or_ne_zero_iff h3, hnear]
      omega
    rw [if_neg h3, if_neg h, htwo]
    by_cases h2 : 0x04 ≤ token % 0x10
    · rw [if_pos (hpair.2 h2), if_pos h2, show token % 0x04 = token % 0x10 - 0x04 by omega]
      exact hr.bitsBelow _ (by decide) (by decide)
    · rw [if_neg (mt hpair.1 h2), if_neg h2, show token % 0x04 = token % 0x10 by omega]
      exact middle_refines hr _ (by decide) (by decide)

theorem longDistance_refines (hr : r.Holds data odd stream) (token : Nat) :
    Refines (Reader.Reads data odd) (longDistance data eff token r)
      (readLongDistance (exhaustedAt odd) eff (token % 2) stream) := by
  have hflag : token &&& 0x01 = token % 2 := Nat.and_two_pow_sub_one_eq_mod token 1
  unfold longDistance readLongDistance
  by_cases h0 : token % 2 = 1
  · rw [if_pos (by omega), if_pos h0]
    exact (hr.bits (by omega) (by omega)).bind fun _ _ hp => .ok ⟨congrArg (· + 544) hp.1, hp.2⟩
  · rw [if_neg (by omega), if_neg h0]
    refine (hr.bits (by decide) (by decide)).and_ok.bind fun p q hp => ?_
    obtain ⟨⟨hvalue, hr'⟩, hread⟩ := hp
    dsimp only
    rw [hvalue]
    exact flagged_refines hr' (readBits_eq_ok.1 hread).1

theorem longestDistance_refines (hr : r.Holds data odd stream) :
    Refines (Reader.Reads data odd) (longestDistance data eff r)
      (readLongestDistance (exhaustedAt odd) eff stream) := by
  refine (hr.bits (by decide) (by decide)).and_ok.bind fun p q hp => ?_
  obtain ⟨⟨hvalue, hr'⟩, hread⟩ := hp
  have hlt : q.1 < 0x80 := (readBits_eq_ok.1 hread).1
  have hfar : q.1 &&& 0x40 ≠ 0 ↔ 0x40 ≤ q.1 % 0x80 := and_two_pow_ne_zero_iff q.1 6
  have hsix : q.1 &&& 0x3F = q.1 % 0x40 := Nat.and_two_pow_sub_one_eq_mod q.1 6
  rw [Nat.mod_eq_of_lt hlt] at hfar
  dsimp only
  rw [hvalue]
  by_cases h6 : 0x40 ≤ q.1
  · rw [if_pos (hfar.2 h6), if_pos h6, subtract_of_le (by omega), pure_bind, hsix,
      show q.1 % 0x40 = q.1 - 0x40 by omega]
    exact far_refines hr' _ (by omega) (by omega)
  · rw [if_neg (mt hfar.1 h6), if_neg h6]
    exact flagged_refines hr' (by omega)

omit hlow hhigh in
/-- What goes on with a value goes on with the bits below its highest ones. -/
theorem readLow_bind {α : Type} (exhausted : Error) (high count : Nat) (bits : List Bool)
    (g : Nat × List Bool → Except Error α) : (readLow exhausted high count bits >>= g)
      = readBits exhausted count bits >>= fun (value, rest) =>
          g (high * 2 ^ count + value, rest) := by
  rw [readLow, readOnto_eq_map_onto_zero, readBits]
  cases readOnto exhausted 0 count bits <;> rfl

/-- A command that was read, and what is still to be read. -/
def ReadsCommand (data : Bytes) (odd : Nat) (p : Command × Reader) (q : Command × List Bool) :
    Prop :=
  p.1 = q.1 ∧ p.2.Holds data odd q.2

/-- **A command is read as from the stream.** -/
theorem readCommand_refines (hr : r.Holds data odd stream) :
    Refines (ReadsCommand data odd) (readCommand data eff r)
      (StoneCracker.readCommand (exhaustedAt odd) eff stream) := by
  refine (hr.bits (by decide) (by decide)).and_ok.bind fun p q hp => ?_
  obtain ⟨⟨hvalue, hr'⟩, hread⟩ := hp
  obtain ⟨token, rest⟩ := q
  have hlt : token < 0x200 := (readBits_eq_ok.1 hread).1
  dsimp only at hvalue hr' ⊢
  rw [hvalue]
  by_cases hliteral : token < 0x100
  · rw [if_pos hliteral, if_pos hliteral]
    exact .ok ⟨rfl, hr'⟩
  rw [if_neg hliteral, if_neg hliteral]
  by_cases hrun : token = 0x13E ∨ token = 0x13F
  · rw [if_pos hrun, if_neg (by omega), if_neg (by omega), if_pos (by omega), readLow_bind]
    refine (hr'.bits (by decide) (by decide)).and_ok.bind fun p' q' hp' => ?_
    have hlow : q'.1 < 2 ^ 4 := (readBits_eq_ok.1 hp'.2).1
    refine .ok ⟨?_, hp'.1.2⟩
    rw [hp'.1.1, literalsCount_eq token hlow]
  rw [if_neg hrun]
  by_cases hshort : 0x180 ≤ token
  · rw [if_pos hshort, shortCount_eq, if_neg (by omega), if_neg (by omega), if_neg (by omega),
      if_neg (by omega)]
    exact (shortDistance_refines hlow hhigh hr' token).bind_map fun p q hp =>
      .ok ⟨congrArg (Command.copy · _) hp.1, hp.2⟩
  rw [if_neg hshort]
  by_cases hmedium : 0x140 ≤ token
  · rw [if_pos hmedium, mediumCount_eq, if_neg (by omega), if_neg (by omega), if_neg (by omega),
      if_pos (by omega)]
    exact (mediumDistance_refines hlow hhigh hr' token).bind_map fun p q hp =>
      .ok ⟨congrArg (Command.copy · _) hp.1, hp.2⟩
  rw [if_neg hmedium]
  by_cases hlong : 0x120 ≤ token
  · rw [if_pos hlong, longCount_eq hlong (by omega), if_neg (by omega), if_pos (by omega)]
    exact (longDistance_refines hlow hhigh hr' token).bind_map fun p q hp =>
      .ok ⟨congrArg (Command.copy · _) hp.1, hp.2⟩
  · have hfive : token &&& 0x1F = token % 0x20 := Nat.and_two_pow_sub_one_eq_mod token 5
    rw [if_neg hlong, if_pos (by omega), hfive, show token % 0x20 = token - 0x100 by omega]
    refine (hr'.bitsBelow _ (by decide) (by decide)).bind fun p' q' hp' => ?_
    rw [hp'.1]
    refine (longest_refines hp'.2 _ _).bind fun p'' q'' hp'' => ?_
    rw [hp''.1]
    exact (longestDistance_refines hlow hhigh hp''.2).bind_map fun p q hp =>
      .ok ⟨congrArg (Command.copy · _) hp.1, hp.2⟩

end Tokens

end Machine

end AmigaBinary.Decrunch.StoneCracker
