import AmigaBinary.Decrunch.StoneCracker
import AmigaBinary.Proofs.Decrunch.Bits

/-!
# The code of StoneCracker

A token of nine bits covers the mark of a command and the first bits behind it. Without regard to
the nine bits, the code is one of marks and distances: the mark tells a literal byte, a run, or the
length of a copy in one of four bands, and behind the mark of a copy stands its distance in one of
three ranges, in the same form for all bands (`readDistance`). So each command has one code
(`Command.code`): what is read as a command is this code and nothing else (`readCommand_eq_ok`).
-/

namespace AmigaBinary.Decrunch.StoneCracker

variable {exhausted : Error} {eff : Nat} {bits rest : List Bool}

/-! ## 1. Distances -/

/-- The code of a distance: one or two bits for the range, and the place in it. -/
def distanceBits (eff distance : Nat) : List Bool :=
  if distance < 32 then false :: true :: highestFirst 5 distance
  else if distance < 544 then false :: false :: highestFirst 9 (distance - 32)
  else true :: highestFirst eff (distance - 544)

/-- The distance at the front of a stream. -/
def readDistance (exhausted : Error) (eff : Nat) (bits : List Bool) :
    Except Error (Nat × List Bool) := do
  let (isFar, bits) ← readBits exhausted 1 bits
  if isFar = 1 then readFar exhausted 0 eff bits
  else
    let (isNear, bits) ← readBits exhausted 1 bits
    if isNear = 1 then readLow exhausted 0 5 bits else readMiddle exhausted 0 9 bits

/-- A distance whose highest bits are still to be read is in a range that starts at `base`. -/
theorem readRange_eq_ok {base width distance : Nat} :
    ((readLow exhausted 0 width bits >>= fun (value, bits) => .ok (value + base, bits))
        = .ok (distance, rest)) ↔
      base ≤ distance ∧ distance < base + 2 ^ width ∧
        bits = highestFirst width (distance - base) ++ rest := by
  rw [bind_eq_ok]
  constructor
  · rintro ⟨⟨value, behind⟩, hr, h⟩
    obtain ⟨rfl, rfl⟩ := Prod.mk.inj (Except.ok.inj h)
    obtain ⟨low, hl, rfl, rfl⟩ := readOnto_eq_ok.1 hr
    rw [Nat.zero_mul, Nat.zero_add, Nat.add_sub_cancel]
    exact ⟨Nat.le_add_left _ _, by omega, rfl⟩
  · rintro ⟨hlo, hhi, rfl⟩
    refine ⟨(distance - base, rest),
      readOnto_eq_ok.2 ⟨distance - base, by omega, by omega, rfl⟩, ?_⟩
    dsimp only
    rw [Nat.sub_add_cancel hlo]

theorem readLow_eq_ok {width distance : Nat} :
    readLow exhausted 0 width bits = .ok (distance, rest) ↔
      distance < 2 ^ width ∧ bits = highestFirst width distance ++ rest :=
  readBits_eq_ok

/-- **A distance is read from its code**, and from nothing else. -/
theorem readDistance_eq_ok {distance : Nat} :
    readDistance exhausted eff bits = .ok (distance, rest) ↔
      distance < 544 + 2 ^ eff ∧ bits = distanceBits eff distance ++ rest := by
  unfold readDistance
  rw [readBits_bind_eq_ok]
  constructor
  · rintro ⟨isFar, b1, hv1, rfl, h⟩
    obtain rfl | rfl : isFar = 0 ∨ isFar = 1 := by omega
    · obtain ⟨isNear, b2, hv2, rfl, h⟩ := readBits_bind_eq_ok.1 h
      obtain rfl | rfl : isNear = 0 ∨ isNear = 1 := by omega
      · obtain ⟨hlo, hhi, rfl⟩ := readRange_eq_ok.1 h
        refine ⟨Nat.lt_of_lt_of_le hhi (Nat.le_add_right 544 _), ?_⟩
        rw [distanceBits, if_neg (by omega), if_pos (by omega)]
        rfl
      · obtain ⟨hlt, rfl⟩ := readLow_eq_ok.1 h
        have hnear : distance < 32 := hlt
        refine ⟨Nat.lt_of_lt_of_le hnear (Nat.le_trans (by decide) (Nat.le_add_right 544 _)), ?_⟩
        rw [distanceBits, if_pos hnear]
        rfl
    · obtain ⟨hlo, hhi, rfl⟩ := readRange_eq_ok.1 h
      refine ⟨hhi, ?_⟩
      rw [distanceBits, if_neg (by omega), if_neg (by omega)]
      rfl
  · rintro ⟨hd, rfl⟩
    unfold distanceBits
    by_cases hnear : distance < 32
    · rw [if_pos hnear]
      refine ⟨0, _, by decide, rfl, ?_⟩
      exact readBits_bind_eq_ok.2 ⟨1, _, by decide, rfl, readLow_eq_ok.2 ⟨hnear, rfl⟩⟩
    · rw [if_neg hnear]
      by_cases hmiddle : distance < 544
      · rw [if_pos hmiddle]
        refine ⟨0, _, by decide, rfl, ?_⟩
        refine readBits_bind_eq_ok.2 ⟨0, _, by decide, rfl, ?_⟩
        exact readRange_eq_ok.2 ⟨by omega, by omega, rfl⟩
      · rw [if_neg hmiddle]
        exact ⟨1, _, by decide, rfl, readRange_eq_ok.2 ⟨by omega, hd, rfl⟩⟩

theorem highestFirst_true {width place : Nat} (h : place < 2 ^ width) :
    highestFirst (width + 1) (2 ^ width + place) = true :: highestFirst width place := by
  have hbit := highestFirst_highest true h
  rw [Bool.toNat_true, Nat.one_mul] at hbit
  exact hbit

theorem highestFirst_false (width : Nat) {place : Nat} (h : place < 2 ^ width) :
    highestFirst (width + 1) place = false :: highestFirst width place := by
  have hbit := highestFirst_highest false h
  rw [Bool.toNat_false, Nat.zero_mul, Nat.zero_add] at hbit
  exact hbit

theorem readLow_append (exhausted : Error) {known width place : Nat} (h : place < 2 ^ known)
    (hk : known ≤ width) (bits : List Bool) :
    readLow exhausted 0 width (highestFirst known place ++ bits)
      = readLow exhausted place (width - known) bits := by
  have hread := readOnto_append exhausted h 0 (width - known) bits
  rw [Nat.add_sub_cancel' hk, Nat.zero_mul, Nat.zero_add] at hread
  exact hread

/-- **A distance of which the first bits are known** is read from the others. These bits are the two
    that tell the range and the `known` highest ones of the place in it. -/
theorem readDistance_append (exhausted : Error) {known low : Nat} (hk : known ≤ 5)
    (heff : known < eff) (hl : low < 2 ^ (known + 2)) (bits : List Bool) :
    readDistance exhausted eff (highestFirst (known + 2) low ++ bits)
      = if 2 ^ (known + 1) ≤ low then
          readFar exhausted (low - 2 ^ (known + 1)) (eff - (known + 1)) bits
        else if 2 ^ known ≤ low then readLow exhausted (low - 2 ^ known) (5 - known) bits
        else readMiddle exhausted low (9 - known) bits := by
  have hp1 : 2 ^ (known + 1) = 2 * 2 ^ known := by rw [Nat.pow_succ, Nat.mul_comm]
  have hp2 : 2 ^ (known + 2) = 2 * 2 ^ (known + 1) := by rw [Nat.pow_succ, Nat.mul_comm]
  by_cases hfar : 2 ^ (known + 1) ≤ low
  · obtain ⟨place, rfl⟩ := Nat.exists_eq_add_of_le hfar
    have hplace : place < 2 ^ (known + 1) := by omega
    have hread := readLow_append exhausted hplace heff bits
    rw [if_pos hfar, highestFirst_true hplace, Nat.add_sub_cancel_left, readFar, ← hread]
    rfl
  · rw [if_neg hfar, highestFirst_false _ (Nat.lt_of_not_le hfar)]
    by_cases hnear : 2 ^ known ≤ low
    · obtain ⟨place, rfl⟩ := Nat.exists_eq_add_of_le hnear
      have hplace : place < 2 ^ known := by omega
      have hread := readLow_append exhausted hplace hk bits
      rw [if_pos hnear, highestFirst_true hplace, Nat.add_sub_cancel_left, ← hread]
      rfl
    · have hplace : low < 2 ^ known := Nat.lt_of_not_le hnear
      have hread := readLow_append exhausted hplace
        (Nat.le_trans hk (by decide : 5 ≤ 9)) bits
      rw [if_neg hnear, highestFirst_false _ hplace, readMiddle, ← hread]
      rfl

/-- The bands of lengths read the same distances, with four, two or none of their bits known. -/
theorem readShortDistance_eq (heff : 10 ≤ eff) {low : Nat} (hl : low < 0x40) (bits : List Bool) :
    readShortDistance exhausted eff low bits
      = readDistance exhausted eff (highestFirst 6 low ++ bits) := by
  rw [readDistance_append exhausted (by decide : 4 ≤ 5) (by omega) hl]
  rfl

theorem readMediumDistance_eq (heff : 10 ≤ eff) {low : Nat} (hl : low < 0x10) (bits : List Bool) :
    readMediumDistance exhausted eff low bits
      = readDistance exhausted eff (highestFirst 4 low ++ bits) := by
  rw [readDistance_append exhausted (by decide : 2 ≤ 5) (by omega) hl]
  rfl

theorem distanceBits_split (heff : 10 ≤ eff) (distance : Nat) (rest : List Bool) {width : Nat}
    (hw : width ≤ 7) :
    ∃ low < 2 ^ width, ∃ tail,
      distanceBits eff distance ++ rest = highestFirst width low ++ tail := by
  have hlen : 7 ≤ (distanceBits eff distance).length := by
    unfold distanceBits
    split
    · simp
    · split
      · simp
      · simp only [List.length_cons, length_highestFirst]
        omega
  obtain ⟨low, hlow, hbits⟩ := exists_highestFirst ((distanceBits eff distance ++ rest).take width)
  have htake : ((distanceBits eff distance ++ rest).take width).length = width := by
    rw [List.length_take, List.length_append]
    omega
  rw [htake] at hlow hbits
  refine ⟨low, hlow, (distanceBits eff distance ++ rest).drop width, ?_⟩
  rw [hbits, List.take_append_drop]

theorem readLongestDistance_eq_ok (heff : 10 ≤ eff) {distance : Nat} :
    readLongestDistance exhausted eff bits = .ok (distance, rest) ↔
      readDistance exhausted eff bits = .ok (distance, rest) := by
  -- seven bits are known: all of the place in the near range, which nothing is read behind
  have hknown : ∀ value < 0x80, ∀ behind,
      (if 0x40 ≤ value then readFar exhausted (value - 0x40) (eff - 6) behind
        else if 0x20 ≤ value then .ok (value - 0x20, behind)
        else readMiddle exhausted value 4 behind)
      = readDistance exhausted eff (highestFirst 7 value ++ behind) := by
    intro value hv behind
    rw [readDistance_append exhausted (by decide : 5 ≤ 5) (by omega) hv]
    rfl
  unfold readLongestDistance
  rw [readBits_bind_eq_ok]
  constructor
  · rintro ⟨value, behind, hv, rfl, h⟩
    rw [← hknown value hv behind]
    exact h
  · intro h
    obtain ⟨hd, rfl⟩ := readDistance_eq_ok.1 h
    obtain ⟨value, hv, behind, hsplit⟩ :=
      distanceBits_split heff distance rest (by decide : 7 ≤ 7)
    rw [hsplit] at h ⊢
    refine ⟨value, behind, hv, rfl, ?_⟩
    rw [← hknown value hv behind] at h
    exact h

theorem readLongDistance_eq_ok (heff : 10 ≤ eff) {low distance : Nat} (hl : low < 2) :
    readLongDistance exhausted eff low bits = .ok (distance, rest) ↔
      readDistance exhausted eff (highestFirst 1 low ++ bits) = .ok (distance, rest) := by
  obtain rfl | rfl : low = 0 ∨ low = 1 := by omega
  · have hknown : ∀ value < 0x40, ∀ behind,
        (if 0x20 ≤ value then .ok (value - 0x20, behind) else readMiddle exhausted value 4 behind)
        = readDistance exhausted eff (false :: (highestFirst 6 value ++ behind)) := by
      intro value hv behind
      have hread := readDistance_append exhausted (by decide : 5 ≤ 5)
        (by omega : 5 < eff) (Nat.lt_trans hv (by decide : 0x40 < 0x80)) behind
      have hnear : ¬ 2 ^ (5 + 1) ≤ value := Nat.not_le.2 hv
      rw [highestFirst_false 6 hv, if_neg hnear] at hread
      rw [← List.cons_append, hread]
      rfl
    show (readBits exhausted 6 bits >>= _) = _ ↔ readDistance exhausted eff (false :: bits) = _
    rw [readBits_bind_eq_ok]
    constructor
    · rintro ⟨value, behind, hv, rfl, h⟩
      rw [← hknown value hv behind]
      exact h
    · intro h
      obtain ⟨hd, hbits⟩ := readDistance_eq_ok.1 h
      obtain ⟨value, hv, behind, hsplit⟩ :=
        distanceBits_split heff distance rest (by decide : 7 ≤ 7)
      rw [← hbits, highestFirst_succ, List.cons_append, List.cons.injEq] at hsplit
      obtain ⟨-, rfl⟩ := hsplit
      rw [← highestFirst_mod] at h ⊢
      have hv' : value % 2 ^ 6 < 2 ^ 6 := Nat.mod_lt value (by decide)
      refine ⟨value % 2 ^ 6, behind, hv', rfl, ?_⟩
      rw [← hknown _ hv' behind] at h
      exact h
  · exact Iff.rfl

/-! ## 2. Lengths -/

/-- The code of the length of a copy, in four bands. -/
def lengthBits (count : Nat) : List Bool :=
  if count < 4 then [true, true] ++ highestFirst 1 (count - 2)
  else if count < 8 then [true, false, true] ++ highestFirst 2 (count - 4)
  else if count < 23 then [true, false, false, true] ++ highestFirst 4 (count - 8)
  else [true, false, false, false] ++ groupBits 8 (count - 23)

theorem lengthBits_short {part : Nat} (h : part < 2) :
    lengthBits (part + 2) = highestFirst 2 3 ++ highestFirst 1 part := by
  unfold lengthBits
  rw [if_pos (by omega), Nat.add_sub_cancel]
  rfl

theorem lengthBits_medium {part : Nat} (h : part < 4) :
    lengthBits (part + 4) = highestFirst 3 5 ++ highestFirst 2 part := by
  unfold lengthBits
  rw [if_neg (by omega), if_pos (by omega), Nat.add_sub_cancel]
  rfl

theorem lengthBits_long {part : Nat} (h : part < 15) :
    lengthBits (part + 8) = highestFirst 4 9 ++ highestFirst 4 part := by
  unfold lengthBits
  rw [if_neg (by omega), if_neg (by omega), if_pos (by omega), Nat.add_sub_cancel]
  rfl

theorem lengthBits_longest (n : Nat) :
    lengthBits (23 + n) = highestFirst 4 8 ++ groupBits 8 n := by
  unfold lengthBits
  rw [if_neg (by omega), if_neg (by omega), if_neg (by omega), Nat.add_sub_cancel_left]
  rfl

/-- The first group of a number. Another one follows exactly if it is all ones. -/
theorem groupBits_cases (n : Nat) :
    (n < 0xFF ∧ groupBits 8 n = highestFirst 8 n) ∨
      ∃ m, n = m + 0xFF ∧ groupBits 8 n = highestFirst 8 0xFF ++ groupBits 8 m := by
  by_cases hn : n < 0xFF
  · exact .inl ⟨hn, groupBits_of_lt hn⟩
  · obtain ⟨m, rfl⟩ := Nat.exists_eq_add_of_le' (Nat.le_of_not_lt hn)
    exact .inr ⟨m, rfl, groupBits_add (by decide) m⟩

theorem exists_group (n : Nat) :
    ∃ group < 0x100, ∃ more, groupBits 8 n = highestFirst 8 group ++ more := by
  rcases groupBits_cases n with ⟨hn, hcode⟩ | ⟨m, rfl, hcode⟩
  · exact ⟨n, Nat.lt_trans hn (by decide), [], by rw [hcode, List.append_nil]⟩
  · exact ⟨0xFF, by decide, groupBits 8 m, hcode⟩

/-- **The groups of a length are read**, of which the first one has been read before. -/
theorem readLongest_eq_ok {length group count : Nat} (hg : group < 0x100) :
    readLongest exhausted length group bits = .ok (count, rest) ↔
      ∃ n, count = min maxLength (length + n) ∧
        highestFirst 8 group ++ bits = groupBits 8 n ++ rest := by
  fun_induction readLongest exhausted length group bits with
  | case1 length bits e he =>
      constructor
      · intro h
        cases h
      · rintro ⟨n, -, hbits⟩
        -- the first group is all ones, so another one follows and can be read
        have hnext : ∃ next < 0x100, ∃ tail, bits = highestFirst 8 next ++ tail := by
          rcases groupBits_cases n with ⟨hn, hcode⟩ | ⟨m, rfl, hcode⟩
          · rw [hcode] at hbits
            have := (append_highestFirst_inj hg (Nat.lt_trans hn (by decide)) hbits).1
            omega
          · rw [hcode, List.append_assoc] at hbits
            obtain ⟨-, rfl⟩ := append_highestFirst_inj hg (by decide) hbits
            obtain ⟨next, hnext, more, hm⟩ := exists_group m
            exact ⟨next, hnext, more ++ rest, by rw [hm, List.append_assoc]⟩
        obtain ⟨next, hnext, tail, rfl⟩ := hnext
        rw [readBits_eq_ok.2 ⟨hnext, rfl⟩] at he
        cases he
  | case2 length bits next behind hr total ih =>
      obtain ⟨hnext, rfl⟩ := readBits_eq_ok.1 hr
      rw [ih hnext]
      constructor
      · rintro ⟨n, rfl, hbits⟩
        have hcode : groupBits 8 (n + 0xFF) = highestFirst 8 0xFF ++ groupBits 8 n :=
          groupBits_add (by decide) n
        refine ⟨n + 0xFF, by omega, ?_⟩
        rw [hbits, hcode, List.append_assoc]
      · rintro ⟨n, rfl, hbits⟩
        rcases groupBits_cases n with ⟨hn, hcode⟩ | ⟨m, rfl, hcode⟩
        · rw [hcode] at hbits
          have := (append_highestFirst_inj hg (Nat.lt_trans hn (by decide)) hbits).1
          omega
        · rw [hcode, List.append_assoc] at hbits
          obtain ⟨-, hbits⟩ := append_highestFirst_inj hg (by decide) hbits
          exact ⟨m, by omega, hbits⟩
  | case3 length group bits total hne =>
      constructor
      · intro h
        obtain ⟨rfl, rfl⟩ := Prod.mk.inj (Except.ok.inj h)
        exact ⟨group, rfl, by rw [groupBits_of_lt (by omega)]⟩
      · rintro ⟨n, rfl, hbits⟩
        rcases groupBits_cases n with ⟨hn, hcode⟩ | ⟨m, rfl, hcode⟩
        · rw [hcode] at hbits
          obtain ⟨rfl, rfl⟩ := append_highestFirst_inj hg (Nat.lt_trans hn (by decide)) hbits
          rfl
        · rw [hcode, List.append_assoc] at hbits
          exact absurd (append_highestFirst_inj hg (by decide) hbits).1 hne

/-! ## 3. Commands -/

namespace Command

/-- What the parts of a command fit in. -/
def Valid (eff : Nat) : Command → Prop
  | .literal value => value < 0x100
  | .literals count => 14 ≤ count ∧ count ≤ 45
  | .copy distance count => 2 ≤ count ∧ distance < 544 + 2 ^ eff

instance (eff : Nat) (command : Command) : Decidable (command.Valid eff) := by
  cases command <;> unfold Valid <;> infer_instance

/-- The code of a command. -/
def code (eff : Nat) : Command → List Bool
  | .literal value => false :: highestFirst 8 value
  | .literals count =>
    [true, false, false, true, true, true, true, true] ++ highestFirst 5 (count - 14)
  | .copy distance count => lengthBits count ++ distanceBits eff distance

/-- The command that is carried out: no length is greater than the largest one. -/
def capped : Command → Command
  | .copy distance count => .copy distance (min maxLength count)
  | command => command

theorem capped_of_le {command : Command} (h : command.count ≤ maxLength) :
    command.capped = command := by
  cases command with
  | literal value => rfl
  | literals count => rfl
  | copy distance count => exact congrArg (Command.copy distance) (Nat.min_eq_right h)

end Command

theorem copyOf_eq_ok {count : Nat} {distance : Except Error (Nat × List Bool)} {command : Command} :
    copyOf count distance = .ok (command, rest) ↔
      ∃ d, distance = .ok (d, rest) ∧ command = .copy d count := by
  unfold copyOf
  rw [map_eq_ok]
  constructor
  · rintro ⟨⟨d, behind⟩, hd, h⟩
    obtain ⟨rfl, rfl⟩ := Prod.mk.inj h
    exact ⟨d, hd, rfl⟩
  · rintro ⟨d, hd, rfl⟩
    exact ⟨(d, rest), hd, rfl⟩

/-- The nine bits of a token: the mark of a band, a part of the length, a part of what follows. -/
theorem token_eq {mark part low : Nat} (width partWidth lowWidth : Nat) (hp : part < 2 ^ partWidth)
    (hl : low < 2 ^ lowWidth) :
    highestFirst (width + partWidth + lowWidth) ((mark * 2 ^ partWidth + part) * 2 ^ lowWidth + low)
      = highestFirst width mark ++ (highestFirst partWidth part ++ highestFirst lowWidth low) := by
  rw [← List.append_assoc, highestFirst_append hp, highestFirst_append hl]

theorem readBits_token {mark part low : Nat} (width partWidth lowWidth : Nat)
    (hm : mark < 2 ^ width) (hp : part < 2 ^ partWidth) (hl : low < 2 ^ lowWidth)
    (rest : List Bool) :
    readBits exhausted (width + partWidth + lowWidth) (highestFirst width mark
        ++ (highestFirst partWidth part ++ (highestFirst lowWidth low ++ rest)))
      = .ok ((mark * 2 ^ partWidth + part) * 2 ^ lowWidth + low, rest) := by
  have h1 : mark * 2 ^ partWidth + part < 2 ^ (width + partWidth) := by
    have hle := Nat.mul_le_mul_right (2 ^ partWidth) (Nat.succ_le_of_lt hm)
    rw [← Nat.pow_add, Nat.succ_mul] at hle
    omega
  have h2 : (mark * 2 ^ partWidth + part) * 2 ^ lowWidth + low
      < 2 ^ (width + partWidth + lowWidth) := by
    have hle := Nat.mul_le_mul_right (2 ^ lowWidth) (Nat.succ_le_of_lt h1)
    rw [← Nat.pow_add, Nat.succ_mul] at hle
    omega
  refine readBits_eq_ok.2 ⟨h2, ?_⟩
  rw [token_eq width partWidth lowWidth hp hl, List.append_assoc, List.append_assoc]

theorem readCommand_literal {value : Nat} (hv : value < 0x100) (rest : List Bool) :
    readCommand exhausted eff (false :: (highestFirst 8 value ++ rest))
      = .ok (.literal value, rest) := by
  have hr : readBits exhausted 9 (false :: (highestFirst 8 value ++ rest)) = .ok (value, rest) :=
    readBits_eq_ok.2 ⟨by omega, by rw [highestFirst_false 8 hv]; rfl⟩
  unfold readCommand
  rw [hr]
  exact if_pos hv

theorem readCommand_short (heff : 10 ≤ eff) {part low : Nat} (hp : part < 2) (hl : low < 0x40)
    (rest : List Bool) :
    readCommand exhausted eff (lengthBits (part + 2) ++ (highestFirst 6 low ++ rest))
      = copyOf (part + 2) (readDistance exhausted eff (highestFirst 6 low ++ rest)) := by
  have hr : readBits exhausted 9
      (highestFirst 2 3 ++ (highestFirst 1 part ++ (highestFirst 6 low ++ rest)))
      = .ok ((3 * 2 + part) * 0x40 + low, rest) :=
    readBits_token 2 1 6 (by decide) hp hl rest
  have hlength : ((3 * 2 + part) * 0x40 + low) % 0x80 / 0x40 + 2 = part + 2 := by omega
  have hlow : ((3 * 2 + part) * 0x40 + low) % 0x40 = low := by omega
  unfold readCommand
  rw [lengthBits_short hp, List.append_assoc, hr, ← readShortDistance_eq heff hl]
  show (if (3 * 2 + part) * 0x40 + low < 0x100 then _ else _) = _
  rw [if_neg (by omega), if_neg (by omega), if_neg (by omega), if_neg (by omega), if_neg (by omega),
    hlength, hlow]

theorem readCommand_medium (heff : 10 ≤ eff) {part low : Nat} (hp : part < 4) (hl : low < 0x10)
    (rest : List Bool) :
    readCommand exhausted eff (lengthBits (part + 4) ++ (highestFirst 4 low ++ rest))
      = copyOf (part + 4) (readDistance exhausted eff (highestFirst 4 low ++ rest)) := by
  have hr : readBits exhausted 9
      (highestFirst 3 5 ++ (highestFirst 2 part ++ (highestFirst 4 low ++ rest)))
      = .ok ((5 * 4 + part) * 0x10 + low, rest) :=
    readBits_token 3 2 4 (by decide) hp hl rest
  have hlength : ((5 * 4 + part) * 0x10 + low) % 0x40 / 0x10 + 4 = part + 4 := by omega
  have hlow : ((5 * 4 + part) * 0x10 + low) % 0x10 = low := by omega
  unfold readCommand
  rw [lengthBits_medium hp, List.append_assoc, hr, ← readMediumDistance_eq heff hl]
  show (if (5 * 4 + part) * 0x10 + low < 0x100 then _ else _) = _
  rw [if_neg (by omega), if_neg (by omega), if_neg (by omega), if_neg (by omega), if_pos (by omega),
    hlength, hlow]

theorem readCommand_long {part low : Nat} (hp : part < 15) (hl : low < 2) (rest : List Bool) :
    readCommand exhausted eff (lengthBits (part + 8) ++ (highestFirst 1 low ++ rest))
      = copyOf (part + 8) (readLongDistance exhausted eff low rest) := by
  have hr : readBits exhausted 9
      (highestFirst 4 9 ++ (highestFirst 4 part ++ (highestFirst 1 low ++ rest)))
      = .ok ((9 * 0x10 + part) * 2 + low, rest) :=
    readBits_token 4 4 1 (by decide) (Nat.lt_succ_of_lt hp) hl rest
  have hlength : ((9 * 0x10 + part) * 2 + low - 0x120) / 2 + 8 = part + 8 := by omega
  have hlow : ((9 * 0x10 + part) * 2 + low) % 2 = low := by omega
  unfold readCommand
  rw [lengthBits_long hp, List.append_assoc, hr]
  show (if (9 * 0x10 + part) * 2 + low < 0x100 then _ else _) = _
  rw [if_neg (by omega), if_neg (by omega), if_pos (by omega), hlength, hlow]

/-- A run has the mark of a longer copy whose length is all ones. -/
theorem readCommand_run {count : Nat} (h : count < 0x20) (rest : List Bool) :
    readCommand exhausted eff
        ([true, false, false, true, true, true, true, true] ++ (highestFirst 5 count ++ rest))
      = .ok (.literals (count + 14), rest) := by
  have hcode : highestFirst 5 count
      = highestFirst 1 (count / 0x10) ++ highestFirst 4 (count % 0x10) :=
    highestFirst_div_mod 1 4 count
  have hr : readBits exhausted 9 ([true, false, false, true, true, true, true, true]
      ++ (highestFirst 1 (count / 0x10) ++ (highestFirst 4 (count % 0x10) ++ rest)))
      = .ok ((9 * 0x10 + 0xF) * 2 + count / 0x10, highestFirst 4 (count % 0x10) ++ rest) :=
    readBits_token 4 4 1 (by decide : 9 < 2 ^ 4) (by decide : 0xF < 2 ^ 4) (by omega)
      (highestFirst 4 (count % 0x10) ++ rest)
  have hlow : ((9 * 0x10 + 0xF) * 2 + count / 0x10) % 2 = count / 0x10 := by omega
  have hcount : readLow exhausted (count / 0x10) 4 (highestFirst 4 (count % 0x10) ++ rest)
      = .ok (count, rest) :=
    readOnto_eq_ok.2 ⟨count % 0x10, by omega, by omega, rfl⟩
  unfold readCommand
  rw [hcode, List.append_assoc, hr]
  show (if (9 * 0x10 + 0xF) * 2 + count / 0x10 < 0x100 then _ else _) = _
  rw [if_neg (by omega), if_neg (by omega), if_neg (by omega), if_pos (by omega), hlow, hcount]
  rfl

/-- The first group of a longest length is partly in the token. -/
theorem readCommand_longest {group : Nat} (h : group < 0x100) (rest : List Bool) :
    readCommand exhausted eff ([true, false, false, false] ++ (highestFirst 8 group ++ rest))
      = readLongest exhausted 23 group rest >>= fun (count, rest) =>
          copyOf count (readLongestDistance exhausted eff rest) := by
  have hcode : highestFirst 8 group = highestFirst 5 (group / 8) ++ highestFirst 3 (group % 8) :=
    highestFirst_div_mod 5 3 group
  have hr : readBits exhausted 9 ([true, false, false, false]
      ++ (highestFirst 5 (group / 8) ++ (highestFirst 3 (group % 8) ++ rest)))
      = .ok ((8 * 1 + 0) * 0x20 + group / 8, highestFirst 3 (group % 8) ++ rest) :=
    readBits_token 4 0 5 (by decide : 8 < 2 ^ 4) (by decide : 0 < 2 ^ 0) (by omega)
      (highestFirst 3 (group % 8) ++ rest)
  have hhigh : (8 * 1 + 0) * 0x20 + group / 8 - 0x100 = group / 8 := by omega
  have hgroup : readLow exhausted (group / 8) 3 (highestFirst 3 (group % 8) ++ rest)
      = .ok (group, rest) :=
    readOnto_eq_ok.2 ⟨group % 8, by omega, by omega, rfl⟩
  unfold readCommand
  rw [hcode, List.append_assoc, hr]
  show (if (8 * 1 + 0) * 0x20 + group / 8 < 0x100 then _ else _) = _
  rw [if_neg (by omega), if_pos (by omega), hhigh, hgroup]
  rfl

/-- A token that holds the length of a copy and the first bits of its distance, which is read from
    them and the bits behind the token. -/
theorem exists_copy_of_token {token mark part low base distance : Nat}
    (width partWidth lowWidth : Nat)
    (htoken : (mark * 2 ^ partWidth + part) * 2 ^ lowWidth + low = token)
    (hp : part < 2 ^ partWidth) (hl : low < 2 ^ lowWidth)
    (hlength : lengthBits (part + base) = highestFirst width mark ++ highestFirst partWidth part)
    (hmin : 2 ≤ base) (hmax : part + base < 23) {behind : List Bool}
    (hd : readDistance exhausted eff (highestFirst lowWidth low ++ behind) = .ok (distance, rest)) :
    ∃ t : Command, t.Valid eff ∧ .copy distance (part + base) = t.capped ∧
      highestFirst (width + partWidth + lowWidth) token ++ behind = t.code eff ++ rest := by
  obtain ⟨hfits, hbits⟩ := readDistance_eq_ok.1 hd
  have hcount : (Command.copy distance (part + base)).count ≤ maxLength :=
    Nat.le_trans (Nat.le_of_lt hmax) (by decide)
  refine ⟨.copy distance (part + base), ⟨Nat.le_trans hmin (Nat.le_add_left base part), hfits⟩,
    (Command.capped_of_le hcount).symm, ?_⟩
  rw [← htoken, token_eq width partWidth lowWidth hp hl, Command.code, hlength]
  simp only [List.append_assoc]
  rw [hbits]

/-- What is read as a command is the code of one. -/
theorem code_of_readCommand (heff : 10 ≤ eff) {command : Command}
    (h : readCommand exhausted eff bits = .ok (command, rest)) :
    ∃ t : Command, t.Valid eff ∧ command = t.capped ∧ bits = t.code eff ++ rest := by
  unfold readCommand at h
  rw [readBits_bind_eq_ok] at h
  obtain ⟨token, behind, ht, rfl, h⟩ := h
  dsimp only at h
  by_cases hliteral : token < 0x100
  · rw [if_pos hliteral] at h
    obtain ⟨rfl, rfl⟩ := Prod.mk.inj (Except.ok.inj h)
    exact ⟨.literal token, hliteral, rfl, by rw [highestFirst_false 8 hliteral]; rfl⟩
  rw [if_neg hliteral] at h
  by_cases hlongest : token < 0x120
  · rw [if_pos hlongest] at h
    rw [bind_eq_ok] at h
    obtain ⟨⟨group, behind⟩, hg, h⟩ := h
    obtain ⟨low, hl, rfl, rfl⟩ := readOnto_eq_ok.1 hg
    rw [bind_eq_ok] at h
    obtain ⟨⟨count, behind⟩, hc, h⟩ := h
    obtain ⟨n, rfl, hgroups⟩ := (readLongest_eq_ok (by omega)).1 hc
    obtain ⟨d, hd, rfl⟩ := copyOf_eq_ok.1 h
    obtain ⟨hfits, rfl⟩ := readDistance_eq_ok.1 ((readLongestDistance_eq_ok heff).1 hd)
    refine ⟨.copy d (23 + n), ⟨by omega, hfits⟩, rfl, ?_⟩
    have hmark : 8 * 2 ^ 5 + (token - 0x100) = token := by omega
    have htoken : highestFirst 9 token = highestFirst 4 8 ++ highestFirst 5 (token - 0x100) := by
      rw [highestFirst_append (by omega), hmark]
    rw [← highestFirst_append hl, List.append_assoc] at hgroups
    rw [htoken, Command.code, lengthBits_longest]
    simp only [List.append_assoc]
    rw [hgroups]
  rw [if_neg hlongest] at h
  by_cases hlong : token < 0x13E
  · rw [if_pos hlong] at h
    obtain ⟨d, hd, rfl⟩ := copyOf_eq_ok.1 h
    have hlow : token % 2 < 2 := Nat.mod_lt _ (by decide)
    have hpart : (token - 0x120) / 2 < 15 := by omega
    exact exists_copy_of_token 4 4 1 (by omega) (by omega) hlow (lengthBits_long hpart) (by decide)
      (by omega) ((readLongDistance_eq_ok heff hlow).1 hd)
  rw [if_neg hlong] at h
  by_cases hrun : token < 0x140
  · rw [if_pos hrun] at h
    rw [bind_eq_ok] at h
    obtain ⟨⟨count, behind⟩, hc, h⟩ := h
    obtain ⟨low, hl, rfl, rfl⟩ := readOnto_eq_ok.1 hc
    obtain ⟨rfl, rfl⟩ := Prod.mk.inj (Except.ok.inj h)
    refine ⟨.literals (token % 2 * 2 ^ 4 + low + 14), ⟨by omega, by omega⟩, rfl, ?_⟩
    have hmark : 0x9F * 2 ^ 1 + token % 2 = token := by omega
    have htoken : highestFirst 9 token = highestFirst 8 0x9F ++ highestFirst 1 (token % 2) := by
      rw [highestFirst_append (by omega), hmark]
    rw [Command.code, Nat.add_sub_cancel, htoken, ← List.append_assoc,
      List.append_assoc _ _ (highestFirst 4 low), highestFirst_append hl]
    rfl
  rw [if_neg hrun] at h
  by_cases hmedium : token < 0x180
  · rw [if_pos hmedium] at h
    obtain ⟨d, hd, rfl⟩ := copyOf_eq_ok.1 h
    have hlow : token % 0x10 < 0x10 := Nat.mod_lt _ (by decide)
    rw [readMediumDistance_eq heff hlow] at hd
    have hpart : token % 0x40 / 0x10 < 4 := by omega
    exact exists_copy_of_token 3 2 4 (by omega) hpart hlow (lengthBits_medium hpart) (by decide)
      (by omega) hd
  · rw [if_neg hmedium] at h
    obtain ⟨d, hd, rfl⟩ := copyOf_eq_ok.1 h
    have hlow : token % 0x40 < 0x40 := Nat.mod_lt _ (by decide)
    rw [readShortDistance_eq heff hlow] at hd
    have hpart : token % 0x80 / 0x40 < 2 := by omega
    exact exists_copy_of_token 2 1 6 (by omega) hpart hlow (lengthBits_short hpart) (by decide)
      (by omega) hd

/-- **The code of a copy is its length and its distance**, whatever parts of them the token
    holds. -/
theorem readCommand_copy (heff : 10 ≤ eff) {distance count : Nat} (h2 : 2 ≤ count)
    (hd : distance < 544 + 2 ^ eff) (rest : List Bool) :
    readCommand exhausted eff (lengthBits count ++ (distanceBits eff distance ++ rest))
      = .ok (.copy distance (min maxLength count), rest) := by
  have hdistance : readDistance exhausted eff (distanceBits eff distance ++ rest)
      = .ok (distance, rest) := readDistance_eq_ok.2 ⟨hd, rfl⟩
  by_cases hlongest : 23 ≤ count
  · obtain ⟨n, rfl⟩ := Nat.exists_eq_add_of_le hlongest
    obtain ⟨group, hg, more, hgroup⟩ := exists_group n
    have hcount : readLongest exhausted 23 group (more ++ (distanceBits eff distance ++ rest))
        = .ok (min maxLength (23 + n), distanceBits eff distance ++ rest) :=
      (readLongest_eq_ok hg).2 ⟨n, rfl, by rw [hgroup, List.append_assoc]⟩
    rw [lengthBits_longest, hgroup, List.append_assoc, List.append_assoc]
    refine (readCommand_longest hg _).trans (bind_eq_ok.2 ⟨_, hcount, ?_⟩)
    exact copyOf_eq_ok.2 ⟨distance, (readLongestDistance_eq_ok heff).2 hdistance, rfl⟩
  · rw [Nat.min_eq_right (by simp only [maxLength]; omega)]
    by_cases hlong : 8 ≤ count
    · obtain ⟨part, rfl⟩ := Nat.exists_eq_add_of_le' hlong
      obtain ⟨low, hl, tail, hsplit⟩ := distanceBits_split heff distance rest (by decide : 1 ≤ 7)
      rw [hsplit] at hdistance ⊢
      rw [readCommand_long (by omega) hl]
      exact copyOf_eq_ok.2 ⟨distance, (readLongDistance_eq_ok heff hl).2 hdistance, rfl⟩
    · by_cases hmedium : 4 ≤ count
      · obtain ⟨part, rfl⟩ := Nat.exists_eq_add_of_le' hmedium
        obtain ⟨low, hl, tail, hsplit⟩ := distanceBits_split heff distance rest (by decide : 4 ≤ 7)
        rw [hsplit] at hdistance ⊢
        rw [readCommand_medium heff (by omega) hl]
        exact copyOf_eq_ok.2 ⟨distance, hdistance, rfl⟩
      · obtain ⟨part, rfl⟩ := Nat.exists_eq_add_of_le' h2
        obtain ⟨low, hl, tail, hsplit⟩ := distanceBits_split heff distance rest (by decide : 6 ≤ 7)
        rw [hsplit] at hdistance ⊢
        rw [readCommand_short heff (by omega) hl]
        exact copyOf_eq_ok.2 ⟨distance, hdistance, rfl⟩

theorem readCommand_code (exhausted : Error) (heff : 10 ≤ eff) {command : Command}
    (hv : command.Valid eff) (rest : List Bool) :
    readCommand exhausted eff (command.code eff ++ rest) = .ok (command.capped, rest) := by
  cases command with
  | literal value => exact readCommand_literal hv rest
  | literals count =>
      obtain ⟨h14, h45⟩ := hv
      have hcount : count - 14 + 14 = count := Nat.sub_add_cancel h14
      rw [Command.code, List.append_assoc, readCommand_run (by omega), hcount]
      rfl
  | copy distance count =>
      obtain ⟨h2, hd⟩ := hv
      rw [Command.code, List.append_assoc]
      exact readCommand_copy heff h2 hd rest

/-- **A command is read from its code**, and from nothing else. -/
theorem readCommand_eq_ok (heff : 10 ≤ eff) {command : Command} :
    readCommand exhausted eff bits = .ok (command, rest) ↔
      ∃ t : Command, t.Valid eff ∧ command = t.capped ∧ bits = t.code eff ++ rest := by
  constructor
  · exact code_of_readCommand heff
  · rintro ⟨t, hv, rfl, rfl⟩
    exact readCommand_code exhausted heff hv rest

/-- **A command has one code**, unless its length is the largest one, which has the codes of all
    greater lengths. -/
theorem readCommand_eq_ok_of_lt (heff : 10 ≤ eff) {command : Command}
    (hmax : command.count < maxLength) :
    readCommand exhausted eff bits = .ok (command, rest) ↔
      command.Valid eff ∧ bits = command.code eff ++ rest := by
  rw [readCommand_eq_ok heff]
  constructor
  · rintro ⟨t, hv, rfl, hbits⟩
    have ht : t.capped = t := by
      cases t with
      | literal value => rfl
      | literals count => rfl
      | copy distance count =>
          have hlt : min maxLength count < maxLength := hmax
          exact Command.capped_of_le (show count ≤ maxLength by omega)
    rw [ht]
    exact ⟨hv, hbits⟩
  · rintro ⟨hv, hbits⟩
    exact ⟨command, hv, (Command.capped_of_le (Nat.le_of_lt hmax)).symm, hbits⟩

/-- Copies of 4, 2, 23 and 278 bytes. -/
example : Command.code 10 (.copy 3 4) = highestFirst 9 0x144 ++ highestFirst 3 3 := by decide

example : Command.code 10 (.copy 544 2) = highestFirst 9 0x1A0 ++ highestFirst 5 0 := by decide

example : Command.code 10 (.copy 1 23)
    = highestFirst 9 0x100 ++ (highestFirst 3 0 ++ highestFirst 7 0x21) := by decide

example : Command.code 14 (.copy 33 278) = highestFirst 9 0x11F
    ++ (highestFirst 3 7 ++ (highestFirst 8 0 ++ (highestFirst 7 0 ++ highestFirst 4 1))) := by
  decide

end AmigaBinary.Decrunch.StoneCracker
