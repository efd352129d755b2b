import AmigaBinary.Proofs.Routine.Analysis
import AmigaBinary.Proofs.Routine.Scanning

/-!
# Endings that are cut off

The endings of a routine are cut off by its last bytes, before it is scanned, and these can belong
to the operand of an escape. As long as no escape reaches into the ending, a routine refers to what
its code refers to; an escape that does is lost or gets another operand, and only the mark in front
of data does not mind (`escapes_ofCode`). So a call of routine `$7401` in front of a return becomes
a call of routine `$4E75` (`escapes_ofCode_call`).
-/

namespace AmigaBinary.Routine

open M68k

variable {s : Section} {sections : List Section} {code bytes rest : Bytes} {place : Nat}

/-! ## 1. Escapes and their places -/

/-- The escapes among sections. -/
def escapes (sections : List Section) : List Section :=
  sections.filter fun s => !s.isLiteral

/-- The escapes among sections, of which the first is at `place`, with their places. -/
def located : Nat → List Section → List (Nat × Section)
  | _, [] => []
  | place, s :: sections =>
    if s.isLiteral then located (place + s.length) sections
    else (place, s) :: located (place + s.length) sections

/-- The escapes of a routine as its pattern has them: those of its sections, and the branch at its
    end. -/
def Pattern.escapes (pattern : Pattern) : List Section :=
  Routine.escapes pattern.sections
    ++ (pattern.fallthroughTarget.map fun target => .branch (.branch .always) target).toList

theorem map_located (place : Nat) (sections : List Section) :
    (located place sections).map Prod.snd = escapes sections := by
  induction sections generalizing place with
  | nil => rfl
  | cons s sections ih =>
      have htail := ih (place + s.length)
      unfold escapes at htail ⊢
      unfold located
      cases hs : s.isLiteral with
      | true => simpa [hs] using htail
      | false => simpa [hs] using htail

theorem escapes_append (front back : List Section) :
    escapes (front ++ back) = escapes front ++ escapes back :=
  List.filter_append ..

/-- **A pattern has all escapes of its sections**, the last of them as the branch at its end. -/
theorem escapes_ofSections (sections : List Section) :
    (Pattern.ofSections sections).escapes = escapes sections := by
  have hall : ∀ pattern : Pattern, pattern.escapes = escapes pattern.allSections := by
    intro pattern
    rw [Pattern.allSections, escapes_append, Pattern.escapes]
    cases pattern.fallthroughTarget with
    | none => rfl
    | some target => rfl
  rw [hall, Pattern.allSections_ofSections]

/-! ## 2. Escapes of a piece of code -/

theorem located_prependCode (place : Nat) (bytes : Bytes) (sections : List Section) :
    located place (prependCode bytes sections) = located (place + bytes.length) sections := by
  match sections with
  | .literal more :: sections =>
      show located (place + (bytes ++ more).length) sections
        = located (place + bytes.length + more.length) sections
      rw [List.length_append, Nat.add_assoc]
  | [] =>
      by_cases hb : bytes = []
      · rw [hb, nil_prependCode]
        rfl
      · rw [prependCode_nil hb]
        rfl
  | .branch _ _ :: _ | .library _ _ _ :: _ | .register _ _ _ :: _ | .loadAddress _ _ :: _
  | .rawData :: _ =>
      by_cases hb : bytes = []
      · rw [hb, nil_prependCode]
        rfl
      · rw [prependCode_cons hb rfl]
        rfl

theorem located_of_escape (h : readEscape? code = some (s, rest)) (hs : s ≠ .rawData)
    (place : Nat) :
    located place (scan code) = (place, s) :: located (place + s.length) (scan rest) := by
  obtain ⟨hescape, piece, hpiece, rfl⟩ := spelledBy_of_readEscape? h
  rw [scan_of_escape hescape hs hpiece, located, hescape.isLiteral]
  rfl

theorem located_of_mark (h : readEscape? code = some (.rawData, rest)) (place : Nat) :
    located place (scan code) = [(place, .rawData)] := by
  obtain ⟨-, piece, hpiece, rfl⟩ := spelledBy_of_readEscape? h
  rw [scan_of_data hpiece]
  show (place, Section.rawData) :: located (place + 4) (prependCode rest []) = _
  rw [located_prependCode]
  rfl

theorem located_of_word {a b : UInt8} (h : readEscape? (a :: b :: code) = none) (place : Nat) :
    located place (scan (a :: b :: code)) = located (place + 2) (scan code) := by
  rw [scan_of_word h, located_prependCode]
  rfl

theorem located_of_short (h : code.length < 4) (place : Nat) : located place (scan code) = [] := by
  match code, h with
  | [], _ | [_], _ =>
      rw [scan_of_short (by simp), located_prependCode]
      rfl
  | [a, b], _ | [a, b, _], _ =>
      rw [located_of_word rfl, scan_of_short (by simp), located_prependCode]
      rfl

/-- The second byte of all escapes is the same. -/
theorem readEscape?_of_low {a b : UInt8} (h : b ≠ 0xF1) (code : Bytes) :
    readEscape? (a :: b :: code) = none := by
  have hkind : escapeKind? a b = none := by
    rw [escapeKind?, if_neg fun hword => h hword.2]
  match code with
  | [] | [_] => rfl
  | c :: d :: rest =>
      unfold readEscape?
      dsimp only
      rw [hkind]

/-- Where this byte does not stand, there is no escape. -/
theorem located_of_quiet : ∀ {code : Bytes}, 0xF1 ∉ code → ∀ place, located place (scan code) = []
  | [], _, place | [_], _, place => located_of_short (by simp) place
  | a :: b :: code, h, place => by
      have hlow : b ≠ 0xF1 := fun hb => h (by simp [hb])
      have hrest : 0xF1 ∉ code := fun hm => h (by simp [hm])
      rw [located_of_word (readEscape?_of_low hlow code)]
      exact located_of_quiet hrest (place + 2)

theorem readEscape?_append (h : readEscape? code = some (s, rest)) (behind : Bytes) :
    readEscape? (code ++ behind) = some (s, rest ++ behind) := by
  obtain ⟨hs, piece, hpiece, rfl⟩ := spelledBy_of_readEscape? h
  rw [List.append_assoc]
  exact readEscape?_of_spelledBy hs hpiece (rest ++ behind)

theorem length_eq_of_readEscape? (h : readEscape? code = some (s, rest)) :
    code.length = s.length + rest.length := by
  obtain ⟨-, piece, hpiece, rfl⟩ := spelledBy_of_readEscape? h
  rw [List.length_append, Section.length_of_spelledBy hpiece]

/-! ## 3. One ending in the place of another -/

/-- An escape that starts in some bytes and reaches into the ending behind them. In front of it the
    escapes are the same with another ending. -/
structure Straddles (ending other bytes : Bytes) (place : Nat) (kept : List (Nat × Section))
    (residue : Bytes) (start : Nat) (s : Section) : Prop where
  first : located place (scan (bytes ++ ending)) = kept ++ located start (scan (residue ++ ending))
  second : located place (scan (bytes ++ other)) = kept ++ located start (scan (residue ++ other))
  start : start + residue.length = place + bytes.length
  inside : ∀ p ∈ kept, p.1 + p.2.length ≤ place + bytes.length
  read : ∃ rest, readEscape? (residue ++ ending) = some (s, rest)
  reaches : residue.length < s.length

/-- Escapes stay the same with another ending, and none of them reaches into it. -/
structure Spares (ending other bytes : Bytes) (place : Nat) : Prop where
  same : located place (scan (bytes ++ other)) = located place (scan (bytes ++ ending))
  inside : ∀ p ∈ located place (scan (bytes ++ ending)), p.1 + p.2.length ≤ place + bytes.length

variable {ending other more residue : Bytes} {front kept : List (Nat × Section)}
  {place' start : Nat}

/-- What `front` is in front of other bytes, with both endings. -/
structure Leads (ending other bytes : Bytes) (place : Nat) (front : List (Nat × Section))
    (more : Bytes) (place' : Nat) : Prop where
  first : located place (scan (bytes ++ ending)) = front ++ located place' (scan (more ++ ending))
  second : located place (scan (bytes ++ other)) = front ++ located place' (scan (more ++ other))
  length : place' + more.length = place + bytes.length
  inside : ∀ p ∈ front, p.1 + p.2.length ≤ place'

theorem Leads.spares (h : Leads ending other bytes place front more place')
    (hs : Spares ending other more place') : Spares ending other bytes place where
  same := by rw [h.first, h.second, hs.same]
  inside p hp := by
    have hlength := h.length
    rw [h.first] at hp
    rcases List.mem_append.1 hp with hp | hp
    · have hin := h.inside p hp
      omega
    · have hin := hs.inside p hp
      omega

theorem Leads.straddles (h : Leads ending other bytes place front more place')
    (hs : Straddles ending other more place' kept residue start s) :
    Straddles ending other bytes place (front ++ kept) residue start s where
  first := by rw [h.first, hs.first, List.append_assoc]
  second := by rw [h.second, hs.second, List.append_assoc]
  start := hs.start.trans h.length
  inside p hp := by
    have hlength := h.length
    rcases List.mem_append.1 hp with hp | hp
    · have hin := h.inside p hp
      omega
    · have hin := hs.inside p hp
      omega
  read := hs.read
  reaches := hs.reaches

theorem leads_of_escape {piece : Bytes} (hs : s.IsEscape) (hdata : s ≠ .rawData)
    (hpiece : s.SpelledBy piece) :
    Leads ending other (piece ++ more) place [(place, s)] more (place + s.length) where
  first := by
    rw [List.append_assoc]
    exact located_of_escape (readEscape?_of_spelledBy hs hpiece _) hdata place
  second := by
    rw [List.append_assoc]
    exact located_of_escape (readEscape?_of_spelledBy hs hpiece _) hdata place
  length := by
    rw [List.length_append, Section.length_of_spelledBy hpiece, Nat.add_assoc]
  inside p hp := by
    obtain rfl := List.mem_singleton.1 hp
    exact Nat.le_refl _

theorem leads_of_word {a b : UInt8} (h : readEscape? (a :: b :: (more ++ ending)) = none)
    (h' : readEscape? (a :: b :: (more ++ other)) = none) :
    Leads ending other (a :: b :: more) place [] more (place + 2) where
  first := located_of_word h place
  second := located_of_word h' place
  length := by
    rw [List.length_cons, List.length_cons]
    omega
  inside p hp := by cases hp

theorem spares_of_mark {piece : Bytes} (hpiece : Section.rawData.SpelledBy piece) :
    Spares ending other (piece ++ more) place := by
  have hmark (behind : Bytes) :
      located place (scan (piece ++ more ++ behind)) = [(place, .rawData)] := by
    rw [List.append_assoc]
    exact located_of_mark (readEscape?_of_spelledBy (s := .rawData) trivial hpiece _) place
  refine ⟨by rw [hmark, hmark], fun p hp => ?_⟩
  rw [hmark] at hp
  obtain rfl := List.mem_singleton.1 hp
  rw [List.length_append, Section.length_of_spelledBy hpiece]
  exact Nat.add_le_add_left (Nat.le_add_right _ _) place

/-- Fewer than two bytes in front of an ending are no escape with it. -/
theorem spares_of_short (hquiet : 0xF1 ∉ ending) (hother : 0xF1 ∉ other)
    (hlen : bytes.length < 2) : Spares ending other bytes place := by
  have hnothing {behind : Bytes} (hb : 0xF1 ∉ behind) :
      located place (scan (bytes ++ behind)) = [] := by
    match bytes, behind, hlen, hb with
    | [], behind, _, hb => exact located_of_quiet hb place
    | [a], [], _, _ => exact located_of_short (by simp) place
    | [a], b :: behind, _, hb =>
        have hlow : b ≠ 0xF1 := fun he => hb (by simp [he])
        show located place (scan (a :: b :: behind)) = []
        rw [located_of_word (readEscape?_of_low hlow behind)]
        exact located_of_quiet (fun hm => hb (List.mem_cons_of_mem b hm)) (place + 2)
  refine ⟨by rw [hnothing hquiet, hnothing hother], fun p hp => ?_⟩
  rw [hnothing hquiet] at hp
  cases hp

/-- **Of the escapes in front of an ending, only one can depend on it**: the one that reaches into
    it. -/
theorem spares_or_straddles (hquiet : 0xF1 ∉ ending) (hother : 0xF1 ∉ other)
    (hnone : ∀ bytes : Bytes, 2 ≤ bytes.length → readEscape? (bytes ++ ending) = none →
      readEscape? (bytes ++ other) = none) (bytes : Bytes) (place : Nat) :
    Spares ending other bytes place ∨
      ∃ kept residue start s, Straddles ending other bytes place kept residue start s := by
  induction hn : bytes.length using Nat.strongRecOn generalizing bytes place with
  | ind n ih =>
      subst hn
      cases hread : readEscape? (bytes ++ ending) with
      | some found =>
          obtain ⟨s, rest⟩ := found
          by_cases hlen : bytes.length < s.length
          · exact .inr ⟨[], bytes, place, s, rfl, rfl, rfl, by simp, ⟨rest, hread⟩, hlen⟩
          · obtain ⟨hs, piece, hpiece, hcode⟩ := spelledBy_of_readEscape? hread
            have hpos : 0 < s.length := by
              obtain ⟨_, _, _, _, _, rfl, -, -⟩ := hs.leads hpiece
              rw [← Section.length_of_spelledBy hpiece]
              exact Nat.succ_pos _
            obtain ⟨more, rfl⟩ : piece <+: bytes := by
              refine List.prefix_of_prefix_length_le ⟨rest, hcode.symm⟩ ⟨ending, rfl⟩ ?_
              rw [Section.length_of_spelledBy hpiece]
              omega
            by_cases hdata : s = .rawData
            · subst hdata
              exact .inl (spares_of_mark hpiece)
            · have hleads : Leads ending other (piece ++ more) place _ more _ :=
                leads_of_escape hs hdata hpiece
              have hshort : more.length < (piece ++ more).length := by
                rw [List.length_append, Section.length_of_spelledBy hpiece]
                omega
              rcases ih more.length hshort more (place + s.length) rfl with h | ⟨_, _, _, _, h⟩
              · exact .inl (hleads.spares h)
              · exact .inr ⟨_, _, _, _, hleads.straddles h⟩
      | none =>
          match bytes, hread, ih with
          | [], _, _ | [_], _, _ => exact .inl (spares_of_short hquiet hother (by simp))
          | a :: b :: more, hread, ih =>
              have hleads : Leads ending other (a :: b :: more) place [] more _ :=
                leads_of_word hread (hnone (a :: b :: more) (by simp) hread)
              have hshort : more.length < (a :: b :: more).length := by
                rw [List.length_cons, List.length_cons]
                omega
              rcases ih more.length hshort more (place + 2) rfl with h | ⟨_, _, _, _, h⟩
              · exact .inl (hleads.spares h)
              · exact .inr ⟨_, _, _, _, hleads.straddles h⟩

/-! ## 4. The escape that reaches into an ending -/

namespace Straddles

/-- It is read in part in front of the ending, and in part there. -/
theorem spelled (h : Straddles ending other bytes place kept residue start s) :
    s.IsEscape ∧ ∃ reached rest, s.SpelledBy (residue ++ reached) ∧ reached ≠ [] ∧
      ending = reached ++ rest := by
  obtain ⟨rest, hread⟩ := h.read
  obtain ⟨hs, piece, hpiece, hcode⟩ := spelledBy_of_readEscape? hread
  have hlen := Section.length_of_spelledBy hpiece
  have hreaches := h.reaches
  obtain ⟨reached, rfl⟩ : residue <+: piece :=
    List.prefix_of_prefix_length_le ⟨ending, rfl⟩ ⟨rest, hcode.symm⟩ (by omega)
  rw [List.append_assoc] at hcode
  refine ⟨hs, reached, rest, hpiece, ?_, List.append_cancel_left hcode⟩
  rintro rfl
  rw [List.append_nil] at hlen
  omega

/-- It is the last escape. -/
theorem located_eq (h : Straddles ending other bytes place kept residue start s)
    (hquiet : 0xF1 ∉ ending) :
    located place (scan (bytes ++ ending)) = kept ++ [(start, s)] := by
  obtain ⟨hs, reached, rest, hpiece, -, rfl⟩ := h.spelled
  have hrest : 0xF1 ∉ rest := fun hm => hquiet (List.mem_append_right reached hm)
  have hread : readEscape? (residue ++ (reached ++ rest)) = some (s, rest) := by
    rw [← List.append_assoc]
    exact readEscape?_of_spelledBy hs hpiece rest
  rw [h.first]
  by_cases hdata : s = .rawData
  · subst hdata
    rw [located_of_mark hread]
  · rw [located_of_escape hread hdata, located_of_quiet hrest]

theorem beyond (h : Straddles ending other bytes place kept residue start s) :
    place + bytes.length < start + s.length := by
  have hstart := h.start
  have hreaches := h.reaches
  omega

/-- It starts with a whole word in front of the ending. -/
theorem residue_eq (h : Straddles ending other bytes place kept residue start s)
    (hquiet : 0xF1 ∉ ending) : ∃ a more, residue = a :: 0xF1 :: more := by
  obtain ⟨rest, hread⟩ := h.read
  have hlow : ∀ {a b : UInt8} {code : Bytes},
      readEscape? (a :: b :: code) = some (s, rest) → b = 0xF1 := by
    intro a b code hr
    by_contra hb
    rw [readEscape?_of_low hb] at hr
    cases hr
  match residue, ending, hread, hquiet with
  | [], [], hread, _ | [], [_], hread, _ | [_], [], hread, _ => cases hread
  | [], a :: b :: _, hread, hquiet => exact absurd (hlow hread) (fun hb => hquiet (by simp [hb]))
  | [a], b :: _, hread, hquiet => exact absurd (hlow hread) (fun hb => hquiet (by simp [hb]))
  | a :: b :: more, _, hread, _ => exact ⟨a, more, by rw [hlow hread]⟩

end Straddles

/-- What is left of an escape without its end is no escape, nor is one in it. -/
theorem located_of_truncated {behind : Bytes}
    (h : readEscape? (residue ++ behind) = some (s, rest)) (hlen : residue.length < s.length)
    (place : Nat) : located place (scan residue) = [] := by
  have hnone : readEscape? residue = none := by
    rw [← Option.not_isSome_iff_eq_none, Option.isSome_iff_exists]
    rintro ⟨⟨s', rest'⟩, hread⟩
    have happend := readEscape?_append hread behind
    obtain ⟨rfl, -⟩ := Prod.mk.inj (Option.some.inj (happend.symm.trans h))
    have hlength := length_eq_of_readEscape? hread
    omega
  have hsix : s.length ≤ 6 := by
    obtain ⟨hs, -⟩ := spelledBy_of_readEscape? h
    cases s with
    | literal bytes => exact hs.elim
    | _ => exact Nat.le_of_ble_eq_true rfl
  match residue, hnone, hlen with
  | [], _, _ | [_], _, _ => exact located_of_short (by simp) place
  | a :: b :: more, hnone, hlen =>
      rw [List.length_cons, List.length_cons] at hlen
      rw [located_of_word hnone]
      exact located_of_short (by omega) (place + 2)

/-- **Without an ending, the escapes are the same exactly if none of them reaches into it.** -/
theorem escapes_cut (hquiet : 0xF1 ∉ ending) (bytes : Bytes) :
    escapes (scan bytes) = escapes (scan (bytes ++ ending)) ↔
      ∀ p ∈ located 0 (scan (bytes ++ ending)), p.1 + p.2.length ≤ bytes.length := by
  have hnone : ∀ bytes : Bytes, 2 ≤ bytes.length → readEscape? (bytes ++ ending) = none →
      readEscape? (bytes ++ []) = none := by
    intro bytes _ hread
    rw [List.append_nil, ← Option.not_isSome_iff_eq_none, Option.isSome_iff_exists]
    rintro ⟨⟨s, rest⟩, hsome⟩
    rw [readEscape?_append hsome] at hread
    cases hread
  rw [← map_located 0, ← map_located 0]
  rcases spares_or_straddles hquiet (by simp) hnone bytes 0 with h | ⟨kept, residue, start, s, h⟩
  · have hsame := h.same
    have hinside := h.inside
    rw [List.append_nil] at hsame
    rw [Nat.zero_add] at hinside
    exact iff_of_true (congrArg (List.map Prod.snd) hsame) hinside
  · obtain ⟨rest, hread⟩ := h.read
    have hsecond := h.second
    have hbeyond := h.beyond
    rw [List.append_nil, List.append_nil, located_of_truncated hread h.reaches, List.append_nil]
      at hsecond
    rw [hsecond, h.located_eq hquiet]
    refine iff_of_false (fun heq => ?_) (fun hall => ?_)
    · have hlength := congrArg List.length heq
      simp at hlength
    · have hin := hall (start, s) (by simp)
      dsimp only at hin
      omega

/-! ## 5. A plain return at the end -/

/-- The ending with a load of D2, and what stands behind it. -/
def typedReturn (type : UInt8) (more : Bytes) : Bytes :=
  0x74 :: type :: 0x4E :: 0x75 :: more

variable {type : UInt8}

/-- Whether a word in front is an escape does not depend on which of the two endings follows, as
    long as there are enough bytes. -/
theorem isSome_return (h : 2 ≤ bytes.length) :
    (readEscape? (bytes ++ typedReturn type more)).isSome ↔
      (readEscape? (bytes ++ [0x4E, 0x75, 0, 0])).isSome := by
  unfold typedReturn
  match bytes, h with
  | [high, low], _ =>
      show (readEscape? (high :: low :: 0x74 :: type :: (0x4E :: 0x75 :: more))).isSome ↔
        (readEscape? (high :: low :: 0x4E :: 0x75 :: [0, 0])).isSome
      rw [isSome_readEscape? (by simp), isSome_readEscape? (by simp)]
      simp
  | [high, low, a], _ =>
      show (readEscape? (high :: low :: a :: 0x74 :: (type :: 0x4E :: 0x75 :: more))).isSome ↔
        (readEscape? (high :: low :: a :: 0x4E :: [0x75, 0, 0])).isSome
      rw [isSome_readEscape? (by simp), isSome_readEscape? (by simp)]
      simp
  | high :: low :: a :: b :: tail, _ =>
      show (readEscape? (high :: low :: a :: b :: (tail ++ _))).isSome ↔
        (readEscape? (high :: low :: a :: b :: (tail ++ _))).isSome
      rw [isSome_readEscape? (by simp; omega), isSome_readEscape? (by simp)]

theorem readEscape?_return_none (h : 2 ≤ bytes.length)
    (hnone : readEscape? (bytes ++ typedReturn type more) = none) :
    readEscape? (bytes ++ [0x4E, 0x75]) = none := by
  rw [← Option.not_isSome_iff_eq_none, isSome_return h] at hnone
  rw [← Option.not_isSome_iff_eq_none, Option.isSome_iff_exists]
  rintro ⟨⟨s, rest⟩, hread⟩
  have happend : readEscape? (bytes ++ [0x4E, 0x75, 0, 0]) = some (s, rest ++ [0, 0]) := by
    have hmore := readEscape?_append hread [0, 0]
    rwa [List.append_assoc] at hmore
  exact hnone (Option.isSome_iff_exists.2 ⟨_, happend⟩)

/-- All bytes but the first tell what an escape refers to. -/
theorem Section.spelledBy_tail {piece piece' : Bytes} (hs : s ≠ .rawData)
    (h : s.SpelledBy piece) (h' : s.SpelledBy piece') : piece.tail = piece'.tail := by
  cases s with
  | rawData => exact absurd rfl hs
  | loadAddress reg routine =>
      obtain ⟨call, rfl⟩ := h
      obtain ⟨call', rfl⟩ := h'
      rfl
  | _ =>
      obtain rfl : piece = _ := h
      obtain rfl : piece' = _ := h'
      rfl

/-- **The mark in front of data stays what it is** with a plain return behind it. -/
theorem Straddles.mark_stays (h : Straddles (typedReturn type more) [0x4E, 0x75] bytes place kept
    residue start .rawData) (hquiet : 0xF1 ∉ typedReturn type more) :
    located start (scan (residue ++ [0x4E, 0x75])) = [(start, .rawData)] := by
  obtain ⟨-, reached, rest, ⟨operand, hpiece⟩, -, -⟩ := h.spelled
  obtain ⟨a, tail, rfl⟩ := h.residue_eq hquiet
  obtain rfl : a = 0xFF := (List.cons.inj hpiece).1
  obtain ⟨x, y, behind, htail⟩ : ∃ x y behind, tail ++ [0x4E, 0x75] = x :: y :: behind := by
    match tail with
    | [] | [_] | _ :: _ :: _ => exact ⟨_, _, _, rfl⟩
  have hmark : Section.rawData.SpelledBy [0xFF, 0xF1, x, y] :=
    ⟨Bytes.word16 x y, by rw [Bytes.ofWord16_word16]; rfl⟩
  show located start (scan (0xFF :: 0xF1 :: (tail ++ [0x4E, 0x75]))) = _
  rw [htail]
  exact located_of_mark (readEscape?_of_spelledBy (s := .rawData) trivial hmark behind) start

/-- An escape that is lost has no routine number in front of the ending: four bytes would do. -/
theorem length_of_lost (h : (readEscape? (residue ++ typedReturn type more)).isSome)
    (hnone : readEscape? (residue ++ [0x4E, 0x75]) = none) : residue.length < 4 := by
  match residue, h, hnone with
  | [], _, _ | [_], _, _ | [_, _], _, _ | [_, _, _], _, _ => simp
  | high :: low :: a :: b :: tail, h, hnone =>
      have hlen : 2 ≤ (tail ++ typedReturn type more).length := by
        rw [List.length_append]
        exact Nat.le_trans (by simp [typedReturn]) (Nat.le_add_left _ tail.length)
      have hfour := (isSome_readEscape? hlen).1 h
      have hsome : (readEscape? (high :: low :: a :: b :: (tail ++ [0x4E, 0x75]))).isSome :=
        (isSome_readEscape? (by simp)).2 hfour
      exact absurd hnone (Option.isSome_iff_ne_none.1 hsome)

/-- The same escape cannot stand in front of both endings. -/
theorem Straddles.read_ne (h : Straddles (typedReturn type more) [0x4E, 0x75] bytes place kept
    residue start s) (hquiet : 0xF1 ∉ typedReturn type more) (hs : s ≠ .rawData) :
    readEscape? (residue ++ [0x4E, 0x75]) ≠ some (s, rest) := by
  intro hread
  obtain ⟨-, reached, behind, hpiece, hne, hending⟩ := h.spelled
  obtain ⟨a, tail, rfl⟩ := h.residue_eq hquiet
  obtain ⟨-, piece, hpiece', hcode⟩ := spelledBy_of_readEscape? hread
  obtain ⟨reached', rfl⟩ : (a :: 0xF1 :: tail) <+: piece := by
    refine List.prefix_of_prefix_length_le ⟨[0x4E, 0x75], rfl⟩ ⟨rest, hcode.symm⟩ ?_
    rw [Section.length_of_spelledBy hpiece']
    exact Nat.le_of_lt h.reaches
  have hsame : reached = reached' :=
    List.append_cancel_left (List.cons.inj (Section.spelledBy_tail hs hpiece hpiece')).2
  subst hsame
  rw [List.append_assoc] at hcode
  have hother := List.append_cancel_left hcode
  -- the byte behind the residue would be both that of the load and that of the return
  match reached, hne with
  | byte :: _, _ =>
      have hload : (0x74 : UInt8) = byte := (List.cons.inj hending).1
      have hreturn : (0x4E : UInt8) = byte := (List.cons.inj hother).1
      rw [← hload] at hreturn
      exact absurd hreturn (by decide)

/-- **Any other escape does not**: it is lost, or gets another operand. -/
theorem Straddles.escape_changes (h : Straddles (typedReturn type more) [0x4E, 0x75] bytes place
    kept residue start s) (hquiet : 0xF1 ∉ typedReturn type more) (hs : s ≠ .rawData) :
    (located start (scan (residue ++ [0x4E, 0x75]))).map Prod.snd ≠ [s] := by
  cases hread : readEscape? (residue ++ [0x4E, 0x75]) with
  | none =>
      obtain ⟨_, hsome⟩ := h.read
      have hlen := length_of_lost (Option.isSome_iff_exists.2 ⟨_, hsome⟩) hread
      obtain ⟨a, tail, rfl⟩ := h.residue_eq hquiet
      rw [List.length_cons, List.length_cons] at hlen
      have hshort : (tail ++ [0x4E, 0x75] : Bytes).length < 4 := by
        rw [List.length_append]
        exact Nat.add_lt_add_right (by omega : tail.length < 2) 2
      have hword : located start (scan (a :: 0xF1 :: tail ++ [0x4E, 0x75]))
          = located (start + 2) (scan (tail ++ [0x4E, 0x75])) := located_of_word hread start
      rw [hword, located_of_short hshort]
      exact fun heq => by cases heq
  | some found =>
      obtain ⟨s', rest⟩ := found
      by_cases hdata : s' = .rawData
      · subst hdata
        rw [located_of_mark hread]
        exact fun heq => hs (List.cons.inj heq).1.symm
      · rw [located_of_escape hread hdata]
        intro heq
        obtain rfl : s' = s := (List.cons.inj heq).1
        exact h.read_ne hquiet hs hread

/-- **With a plain return in the place of an ending that loads D2, the escapes are the same exactly
    if none but the mark in front of data reaches into it.** -/
theorem escapes_return (hquiet : 0xF1 ∉ typedReturn type more) (bytes : Bytes) :
    escapes (scan (bytes ++ [0x4E, 0x75])) = escapes (scan (bytes ++ typedReturn type more)) ↔
      ∀ p ∈ located 0 (scan (bytes ++ typedReturn type more)),
        p.1 + p.2.length ≤ bytes.length ∨ p.2 = .rawData := by
  rw [← map_located 0, ← map_located 0]
  rcases spares_or_straddles hquiet (by decide) (fun _ => readEscape?_return_none) bytes 0 with
    h | ⟨kept, residue, start, s, h⟩
  · have hinside := h.inside
    rw [Nat.zero_add] at hinside
    exact iff_of_true (congrArg (List.map Prod.snd) h.same) fun p hp => .inl (hinside p hp)
  · have hinside := h.inside
    rw [Nat.zero_add] at hinside
    rw [h.second, h.located_eq hquiet, List.map_append, List.map_append, List.append_cancel_left_eq]
    by_cases hs : s = .rawData
    · subst hs
      rw [h.mark_stays hquiet]
      refine iff_of_true rfl fun p hp => ?_
      rcases List.mem_append.1 hp with hp | hp
      · exact .inl (hinside p hp)
      · rw [List.mem_singleton.1 hp]
        exact .inr rfl
    · refine iff_of_false (h.escape_changes hquiet hs) fun hall => ?_
      have hbeyond := h.beyond
      rcases hall (start, s) (by simp) with hin | hdata
      · dsimp only at hin
        omega
      · exact hs hdata

/-! ## 6. Patterns of code -/

theorem dropMarker_cases (code : Bytes) :
    dropMarker code = code ∨ code = dropMarker code ++ parameterMarker := by
  unfold dropMarker
  split
  · rename_i h
    obtain ⟨bytes, rfl⟩ := List.isSuffixOf_iff_suffix.1 h
    have hlen : (bytes ++ parameterMarker).length - 4 = bytes.length := by
      rw [List.length_append]
      exact Nat.add_sub_cancel bytes.length 4
    right
    rw [hlen, List.take_left]
  · exact .inl rfl

theorem dropTypeLoad_cases (code : Bytes) :
    dropTypeLoad code = code ∨ ∃ bytes type, type ≤ 2 ∧ code = bytes ++ typedReturn type [] ∧
      dropTypeLoad code = bytes ++ [0x4E, 0x75] := by
  unfold dropTypeLoad
  split
  · rename_i type hdrop
    split
    · rename_i htype
      refine .inr ⟨_, type, htype, ?_, rfl⟩
      exact (List.take_append_drop (code.length - 4) code).symm.trans (congrArg _ hdrop)
    · exact .inl rfl
  · exact .inl rfl

/-- Where the endings of a routine start that are cut off or replaced. -/
def endingPlace (code : Bytes) : Nat :=
  if dropTypeLoad (dropMarker code) = dropMarker code then (dropMarker code).length
  else (dropMarker code).length - 4

/-- An escape reaches into these endings: any at all into the marker, and any but the mark in front
    of data into a return that sets D2. -/
def Severed (code : Bytes) : Prop :=
  ∃ p ∈ located 0 (scan code), endingPlace code < p.1 + p.2.length ∧
    (p.2 = .rawData → dropTypeLoad (dropMarker code) = dropMarker code)

theorem quiet_parameterMarker : (0xF1 : UInt8) ∉ parameterMarker := by
  decide

theorem quiet_typedReturn (htype : type ≤ 2) (hmore : 0xF1 ∉ more) :
    0xF1 ∉ typedReturn type more := by
  have hne : type ≠ 0xF1 := by
    rintro rfl
    exact absurd htype (by decide)
  simp [typedReturn, hne.symm, hmore]

/-- **A routine refers to what its code refers to, unless an escape reaches into its endings.** -/
theorem escapes_ofCode (code : Bytes) :
    (Pattern.ofCode code).escapes = escapes (scan code) ↔ ¬ Severed code := by
  rw [Pattern.ofCode, escapes_ofSections]
  unfold trimmed Severed endingPlace
  rcases dropTypeLoad_cases (dropMarker code) with hsame | ⟨bytes, type, htype, hbytes, hdrop⟩
  · -- at most the marker is cut off
    obtain ⟨ending, hquiet, hcode⟩ :
        ∃ ending, 0xF1 ∉ ending ∧ code = dropMarker code ++ ending := by
      rcases dropMarker_cases code with h | h
      · exact ⟨[], by simp, by rw [List.append_nil, h]⟩
      · exact ⟨parameterMarker, quiet_parameterMarker, h⟩
    have hcut := escapes_cut hquiet (dropMarker code)
    rw [← hcode] at hcut
    rw [hsame, if_pos rfl, hcut]
    simp
  · obtain ⟨more, hmore, hcode⟩ :
        ∃ more, 0xF1 ∉ more ∧ code = bytes ++ typedReturn type more := by
      rcases dropMarker_cases code with h | h
      · exact ⟨[], by simp, by rw [← hbytes, h]⟩
      · refine ⟨parameterMarker, quiet_parameterMarker, ?_⟩
        rw [h, hbytes, List.append_assoc]
        rfl
    have hreturn := escapes_return (quiet_typedReturn htype hmore) bytes
    rw [← hcode] at hreturn
    have hchanged : bytes ++ [0x4E, 0x75] ≠ bytes ++ typedReturn type [] := fun he =>
      absurd (congrArg List.length (List.append_cancel_left he)) (by simp [typedReturn])
    have hlen : (bytes ++ typedReturn type []).length - 4 = bytes.length := by
      rw [List.length_append]
      exact Nat.add_sub_cancel bytes.length 4
    rw [hdrop, hreturn, hbytes, if_neg hchanged, hlen]
    simp only [hchanged, imp_false, not_exists, not_and, not_not, ← Nat.not_lt, or_iff_not_imp_left]

/-- A call of routine `$7401` in front of a return becomes a call of routine `$4E75`. -/
theorem escapes_ofCode_call :
    escapes (scan [0xF3, 0xF1, 0x74, 0x01, 0x4E, 0x75]) = [.branch (.branch .never) 0x7401] ∧
      (Pattern.ofCode [0xF3, 0xF1, 0x74, 0x01, 0x4E, 0x75]).escapes
        = [.branch (.branch .never) 0x4E75] := by
  have hbefore : readEscape? [0xF3, 0xF1, 0x74, 0x01, 0x4E, 0x75]
      = some (.branch (.branch .never) 0x7401, [0x4E, 0x75]) := by decide
  have hafter : readEscape? [0xF3, 0xF1, 0x4E, 0x75]
      = some (.branch (.branch .never) 0x4E75, []) := by decide
  have htrimmed : trimmed [0xF3, 0xF1, 0x74, 0x01, 0x4E, 0x75] = [0xF3, 0xF1, 0x4E, 0x75] := by
    decide
  rw [Pattern.ofCode, escapes_ofSections, htrimmed, ← map_located 0, ← map_located 0,
    located_of_escape hbefore (by decide), located_of_escape hafter (by decide),
    located_of_short (by decide), located_of_short (by decide)]
  exact ⟨rfl, rfl⟩

end AmigaBinary.Routine
