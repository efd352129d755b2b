import AmigaBinary.Proofs.Routine.Escape
import AmigaBinary.Total
import Mathlib.Data.List.Forall2

/-!
# Scanning routines

`Scanned` tells what it is for a list of sections to be the one list that scanning finds
(`scanned_scan`, `Scanned.scan_eq`): its escapes are read where they stand, and at no even place of
the plain code in front of them is one. Such a list is still the one that is found after its
sections have been written back (`Scanned.write`), and what stands behind some of its sections is
found behind their bytes (`Scanned.drop`). So it accounts for every byte of the code and for every
escape (`scan_lossless`).
-/

namespace AmigaBinary.Routine

/-! ## 1. What scanning finds -/

variable {s : Section} {sections : List Section} {code piece rest : Bytes}

/-- No escape stands at an even place of the first `length` bytes. -/
def Unescaped (length : Nat) (code : Bytes) : Prop :=
  ∀ place < length, place % 2 = 0 → readEscape? (code.drop place) = none

theorem unescaped_cons {length : Nat} {a b : UInt8} :
    Unescaped (length + 2) (a :: b :: code) ↔
      readEscape? (a :: b :: code) = none ∧ Unescaped length code := by
  constructor
  · intro h
    exact ⟨h 0 (by omega) rfl, fun place hlt heven => h (place + 2) (by omega) (by omega)⟩
  · rintro ⟨hfirst, h⟩ place hlt heven
    match place, heven with
    | 0, _ => exact hfirst
    | place + 2, heven => exact h place (by omega) (by omega)

/-- The one list of sections of a piece of code: the escapes that stand there, and the plain code
    between them, in which none stands. -/
inductive Scanned : Bytes → List Section → Prop where
  | empty : Scanned [] []
  | plain {bytes : Bytes} (hne : bytes ≠ []) (hplain : Unescaped bytes.length bytes) :
      Scanned bytes [.literal bytes]
  | between {bytes behind : Bytes} {s : Section} {sections : List Section} (hne : bytes ≠ [])
      (heven : bytes.length % 2 = 0) (hplain : Unescaped bytes.length (bytes ++ behind))
      (hs : s.IsEscape) (h : Scanned behind (s :: sections)) :
      Scanned (bytes ++ behind) (.literal bytes :: s :: sections)
  | escape {piece rest : Bytes} {s : Section} {sections : List Section} (hs : s.IsEscape)
      (hdata : s ≠ .rawData) (hpiece : s.SpelledBy piece) (h : Scanned rest sections) :
      Scanned (piece ++ rest) (s :: sections)
  | mark {piece : Bytes} (hpiece : Section.rawData.SpelledBy piece) : Scanned piece [.rawData]
  | data {piece rest : Bytes} (hpiece : Section.rawData.SpelledBy piece) (hne : rest ≠ []) :
      Scanned (piece ++ rest) [.rawData, .literal rest]

theorem scan_of_escape (hs : s.IsEscape) (hdata : s ≠ .rawData) (hpiece : s.SpelledBy piece) :
    scan (piece ++ rest) = s :: scan rest := by
  have he := readEscape?_of_spelledBy hs hpiece rest
  rw [scan]
  split
  · rename_i h
    obtain ⟨rfl, -⟩ := Prod.mk.inj (Option.some.inj (he.symm.trans h))
    exact absurd rfl hdata
  · rename_i h
    obtain ⟨rfl, rfl⟩ := Prod.mk.inj (Option.some.inj (he.symm.trans h))
    rfl
  · rename_i h
    cases he.symm.trans h

theorem scan_of_data (hpiece : Section.rawData.SpelledBy piece) (rest : Bytes) :
    scan (piece ++ rest) = .rawData :: prependCode rest [] := by
  have he := readEscape?_of_spelledBy (s := .rawData) trivial hpiece rest
  rw [scan]
  split
  · rename_i h
    obtain ⟨-, rfl⟩ := Prod.mk.inj (Option.some.inj (he.symm.trans h))
    rfl
  · rename_i hdata h
    obtain ⟨rfl, -⟩ := Prod.mk.inj (Option.some.inj (he.symm.trans h))
    exact absurd rfl hdata
  · rename_i h
    cases he.symm.trans h

theorem scan_of_word {a b : UInt8} (h : readEscape? (a :: b :: code) = none) :
    scan (a :: b :: code) = prependCode [a, b] (scan code) := by
  rw [scan]
  split <;> rename_i he
  · cases h.symm.trans he
  · cases h.symm.trans he
  · rfl

theorem scan_of_short (h : code.length < 2) : scan code = prependCode code [] := by
  match code, h with
  | [], _ | [_], _ =>
      rw [scan]
      rfl

/-! ## 2. Plain code in front -/

theorem prependCode_nil {bytes : Bytes} (h : bytes ≠ []) :
    prependCode bytes [] = [.literal bytes] :=
  if_neg h

theorem prependCode_cons {bytes : Bytes} (h : bytes ≠ []) (hs : s.isLiteral = false) :
    prependCode bytes (s :: sections) = .literal bytes :: s :: sections := by
  cases s with
  | literal more => cases hs
  | _ => exact if_neg h

theorem nil_prependCode (sections : List Section) : prependCode [] sections = sections := by
  match sections with
  | [] => rfl
  | s :: sections => cases s <;> rfl

theorem prependCode_append (front bytes : Bytes) (sections : List Section) :
    prependCode (front ++ bytes) sections = prependCode front (prependCode bytes sections) := by
  by_cases hb : bytes = []
  · rw [hb, List.append_nil, nil_prependCode]
  · have hne : front ++ bytes ≠ [] := List.append_ne_nil_of_right_ne_nil front hb
    match sections with
    | [] =>
        rw [prependCode_nil hne, prependCode_nil hb]
        rfl
    | s :: sections =>
        cases hs : s.isLiteral with
        | false =>
            rw [prependCode_cons hne hs, prependCode_cons hb hs]
            rfl
        | true =>
            cases s with
            | literal more =>
                show Section.literal (front ++ bytes ++ more) :: sections = _
                rw [List.append_assoc]
                rfl
            | _ => cases hs

theorem Scanned.cons_word {a b : UInt8} (hplain : readEscape? (a :: b :: code) = none)
    (h : Scanned code sections) : Scanned (a :: b :: code) (prependCode [a, b] sections) := by
  have hne : [a, b] ≠ [] := List.cons_ne_nil a [b]
  have hword : Unescaped [a, b].length (a :: b :: code) :=
    unescaped_cons.2 ⟨hplain, fun place hlt => absurd hlt (Nat.not_lt_zero place)⟩
  cases h with
  | empty => exact .plain hne hword
  | plain _ hmore => exact .plain (List.cons_ne_nil a _) (unescaped_cons.2 ⟨hplain, hmore⟩)
  | between _ heven hmore hs h =>
      refine @Scanned.between (a :: b :: _) _ _ _ (List.cons_ne_nil a _) ?_
        (unescaped_cons.2 ⟨hplain, hmore⟩) hs h
      rw [List.length_cons, List.length_cons]
      omega
  | escape hs hdata hpiece h =>
      rw [prependCode_cons hne hs.isLiteral]
      exact @Scanned.between [a, b] _ _ _ hne (by decide : 2 % 2 = 0) hword hs
        (.escape hs hdata hpiece h)
  | mark hpiece =>
      exact @Scanned.between [a, b] _ _ _ hne (by decide : 2 % 2 = 0) hword trivial (.mark hpiece)
  | data hpiece hrest =>
      exact @Scanned.between [a, b] _ _ _ hne (by decide : 2 % 2 = 0) hword trivial
        (.data hpiece hrest)

theorem scanned_scan (code : Bytes) : Scanned code (scan code) := by
  fun_induction scan code with
  | case1 code rest h =>
      obtain ⟨-, piece, hpiece, rfl⟩ := spelledBy_of_readEscape? h
      by_cases hrest : rest = []
      · rw [hrest, List.append_nil]
        exact .mark hpiece
      · rw [prependCode_nil hrest]
        exact .data hpiece hrest
  | case2 code s rest hdata h ih =>
      obtain ⟨hs, piece, hpiece, rfl⟩ := spelledBy_of_readEscape? h
      exact .escape hs (fun he => hdata he) hpiece ih
  | case3 a b rest h ih => exact ih.cons_word h
  | case4 code h hshort =>
      match code, h, hshort with
      | [], _, _ => exact .empty
      | [a], _, _ =>
          refine .plain (List.cons_ne_nil a []) fun place hlt _ => ?_
          obtain rfl : place = 0 := Nat.lt_one_iff.1 hlt
          rfl
      | a :: b :: rest, h, hshort => exact (hshort a b rest h rfl HEq.rfl).elim

/-- Plain code is scanned as such, in front of what stands behind it. -/
theorem scan_append (behind : Bytes) : ∀ {bytes : Bytes}, bytes.length % 2 = 0 ∨ behind = [] →
    Unescaped bytes.length (bytes ++ behind) →
    scan (bytes ++ behind) = prependCode bytes (scan behind)
  | [], _, _ => (nil_prependCode _).symm
  | [a], .inr hb, _ => by
      subst hb
      rw [scan_of_short (by decide : [].length < 2)]
      exact scan_of_short (by decide : 1 < 2)
  | a :: b :: bytes, heven, hplain => by
      have hplain : Unescaped (bytes.length + 2) (a :: b :: (bytes ++ behind)) := hplain
      obtain ⟨hword, hmore⟩ := unescaped_cons.1 hplain
      have heven' : bytes.length % 2 = 0 ∨ behind = [] := by
        refine heven.imp_left fun h => ?_
        rw [List.length_cons, List.length_cons] at h
        omega
      show scan (a :: b :: (bytes ++ behind)) = _
      rw [scan_of_word hword, scan_append behind heven' hmore]
      exact (prependCode_append [a, b] bytes _).symm

/-- A piece of code has no other list of sections than the one that scanning finds. -/
theorem Scanned.scan_eq (h : Scanned code sections) : scan code = sections := by
  induction h with
  | empty => exact scan_of_short (by decide)
  | @plain bytes hne hplain =>
      have h := scan_append [] (.inr rfl) (by rwa [List.append_nil])
      rw [List.append_nil, scan_of_short (by decide : [].length < 2)] at h
      rw [h]
      exact prependCode_nil hne
  | between hne heven hplain hs _ ih =>
      rw [scan_append _ (.inl heven) hplain, ih, prependCode_cons hne hs.isLiteral]
  | escape hs hdata hpiece _ ih => rw [scan_of_escape hs hdata hpiece, ih]
  | mark hpiece =>
      have h := scan_of_data hpiece []
      rwa [List.append_nil] at h
  | data hpiece hne => rw [scan_of_data hpiece, prependCode_nil hne]

/-! ## 3. Writing back -/

/-- Whether plain code hides an escape does not depend on how the escape behind it is spelled, nor
    on what is behind that. -/
theorem Unescaped.respell {bytes piece' rest' : Bytes} (heven : bytes.length % 2 = 0)
    (hs : s.IsEscape) (hpiece : s.SpelledBy piece) (hpiece' : s.SpelledBy piece')
    (h : Unescaped bytes.length (bytes ++ (piece ++ rest))) :
    Unescaped bytes.length (bytes ++ (piece' ++ rest')) := by
  obtain ⟨p, q, r, t, more, rfl, hp0, hp1⟩ := hs.leads hpiece
  obtain ⟨p', q', r', t', more', rfl, hp0', hp1'⟩ := hs.leads hpiece'
  intro place hlt hplace
  have hnone := h place hlt hplace
  rw [List.drop_append_of_le_length (Nat.le_of_lt hlt)] at hnone ⊢
  have hlen : (bytes.drop place).length = bytes.length - place := List.length_drop
  rw [← Option.not_isSome_iff_eq_none] at hnone ⊢
  match hd : bytes.drop place with
  | [] =>
      rw [hd, List.length_nil] at hlen
      omega
  | [a] =>
      rw [hd, List.length_singleton] at hlen
      omega
  | [a, b] =>
      -- the word in front of the escape: its tag would be the first byte of the escape
      rw [hd] at hnone
      intro hsome
      refine hnone ((isSome_readEscape? (Nat.le_add_left 2 _)).2 ?_)
      obtain ⟨kind, hk, h2 | h0 | ⟨h1, -⟩⟩ :=
        (isSome_readEscape? (Nat.le_add_left 2 _)).1 hsome
      · exact ⟨kind, hk, .inl h2⟩
      · exact absurd h0 hp0'
      · exact absurd h1 hp1'
  | [a, b, c] =>
      rw [hd] at hlen
      simp only [List.length_cons, List.length_nil] at hlen
      omega
  | a :: b :: c :: d :: tail =>
      rw [hd] at hnone
      have hfits : 2 ≤ (tail ++ (p :: q :: r :: t :: more ++ rest)).length := by
        simp only [List.length_append, List.length_cons]
        omega
      have hfits' : 2 ≤ (tail ++ (p' :: q' :: r' :: t' :: more' ++ rest')).length := by
        simp only [List.length_append, List.length_cons]
        omega
      exact fun hsome => hnone ((isSome_readEscape? hfits).2 ((isSome_readEscape? hfits').1 hsome))

theorem Scanned.exists_piece (h : Scanned code (s :: sections)) (hs : s.IsEscape) :
    ∃ piece rest, code = piece ++ rest ∧ s.SpelledBy piece := by
  cases h with
  | plain => exact hs.elim
  | between => exact hs.elim
  | escape _ _ hpiece _ => exact ⟨_, _, rfl, hpiece⟩
  | mark hpiece => exact ⟨code, [], (List.append_nil code).symm, hpiece⟩
  | data hpiece _ => exact ⟨_, _, rfl, hpiece⟩

/-- **Sections that have been written back are found again.** -/
theorem Scanned.write (h : Scanned code sections) :
    Scanned (sections.flatMap Section.write) sections := by
  induction h with
  | empty => exact .empty
  | plain hne hplain =>
      rw [List.flatMap_singleton]
      exact .plain hne hplain
  | between hne heven hplain hs h ih =>
      obtain ⟨piece, rest, rfl, hpiece⟩ := h.exists_piece hs
      rw [List.flatMap_cons]
      refine .between hne heven ?_ hs ih
      rw [List.flatMap_cons]
      exact hplain.respell heven hs hpiece (Section.spelledBy_write _)
  | escape hs hdata _ _ ih =>
      rw [List.flatMap_cons]
      exact .escape hs hdata (Section.spelledBy_write _) ih
  | mark _ =>
      rw [List.flatMap_singleton]
      exact .mark (Section.spelledBy_write _)
  | data _ hne =>
      rw [List.flatMap_cons, List.flatMap_singleton]
      exact .data (Section.spelledBy_write _) hne

/-! ## 4. What the sections account for -/

/-- Two sections one behind the other, of which one at least is no plain code. -/
def Separated (s t : Section) : Prop :=
  ¬ (s.isLiteral = true ∧ t.isLiteral = true)

theorem Scanned.spelled (h : Scanned code sections) :
    ∃ pieces, List.Forall₂ Section.SpelledBy sections pieces ∧ pieces.flatten = code := by
  induction h with
  | empty => exact ⟨[], .nil, rfl⟩
  | @plain bytes _ _ => exact ⟨[bytes], .cons rfl .nil, List.append_nil bytes⟩
  | between _ _ _ _ _ ih =>
      obtain ⟨pieces, hpieces, rfl⟩ := ih
      exact ⟨_ :: pieces, .cons rfl hpieces, rfl⟩
  | escape _ _ hpiece _ ih =>
      obtain ⟨pieces, hpieces, rfl⟩ := ih
      exact ⟨_ :: pieces, .cons hpiece hpieces, rfl⟩
  | @mark piece hpiece => exact ⟨[piece], .cons hpiece .nil, List.append_nil piece⟩
  | @data piece rest hpiece _ =>
      refine ⟨[piece, rest], .cons hpiece (.cons rfl .nil), ?_⟩
      rw [List.flatten_cons, List.flatten_singleton]

theorem total_of_spelled {pieces : List Bytes}
    (h : List.Forall₂ Section.SpelledBy sections pieces) :
    total Section.length sections = pieces.flatten.length := by
  induction h with
  | nil => rfl
  | cons hpiece _ ih =>
      rw [total_cons, List.flatten_cons, List.length_append, ih,
        Section.length_of_spelledBy hpiece]

theorem Scanned.nonempty (h : Scanned code sections) {bytes : Bytes}
    (hmem : .literal bytes ∈ sections) : bytes ≠ [] := by
  induction h with
  | empty => cases hmem
  | plain hne _ =>
      obtain rfl := Section.literal.inj (List.mem_singleton.1 hmem)
      exact hne
  | between hne _ _ _ _ ih =>
      obtain he | hmem := List.mem_cons.1 hmem
      · obtain rfl := Section.literal.inj he
        exact hne
      · exact ih hmem
  | escape hs _ _ _ ih =>
      obtain rfl | hmem := List.mem_cons.1 hmem
      · exact hs.elim
      · exact ih hmem
  | mark _ => cases List.mem_singleton.1 hmem
  | data _ hne =>
      obtain he | hmem := List.mem_cons.1 hmem
      · cases he
      · obtain rfl := Section.literal.inj (List.mem_singleton.1 hmem)
        exact hne

theorem Scanned.separated (h : Scanned code sections) : sections.IsChain Separated := by
  induction h with
  | empty => exact .nil
  | plain _ _ => exact .singleton _
  | between _ _ _ hs _ ih =>
      refine .cons_cons (fun hboth => ?_) ih
      rw [hs.isLiteral] at hboth
      cases hboth.2
  | @escape _ _ s sections hs _ _ _ ih =>
      match sections, ih with
      | [], _ => exact .singleton s
      | t :: sections, ih =>
          refine .cons_cons (fun hboth => ?_) ih
          rw [hs.isLiteral] at hboth
          cases hboth.1
  | mark _ => exact .singleton _
  | data _ _ => exact .cons_cons (fun hboth => by cases hboth.1) (.singleton _)

/-! ## 5. Sections at their places -/

variable {front back : List Section}

theorem Scanned.tail (h : Scanned code (s :: sections)) (hs : s ≠ .rawData) :
    Scanned (code.drop s.length) sections ∧ (sections ≠ [] → s.length % 2 = 0) := by
  cases h with
  | plain _ _ =>
      refine ⟨?_, fun hne => absurd rfl hne⟩
      rw [Section.length, List.drop_length]
      exact .empty
  | between _ heven _ _ h =>
      refine ⟨?_, fun _ => heven⟩
      rw [Section.length, List.drop_left]
      exact h
  | escape hescape _ hpiece h =>
      refine ⟨?_, fun _ => hescape.even⟩
      rw [← Section.length_of_spelledBy hpiece, List.drop_left]
      exact h
  | mark _ => exact absurd rfl hs
  | data _ _ => exact absurd rfl hs

/-- **Sections behind others are found in the code behind those**, up to the mark, and start at an
    even place. -/
theorem Scanned.drop (h : Scanned code (front ++ back)) (hmark : .rawData ∉ front) :
    Scanned (code.drop (total Section.length front)) back ∧
      (back ≠ [] → total Section.length front % 2 = 0) := by
  induction front generalizing code with
  | nil => exact ⟨h, fun _ => rfl⟩
  | cons t front ih =>
      rw [List.mem_cons, not_or] at hmark
      obtain ⟨hne, hmark⟩ := hmark
      obtain ⟨htail, heven⟩ := h.tail (Ne.symm hne)
      obtain ⟨hback, hsum⟩ := ih htail hmark
      rw [total_cons, ← List.drop_drop]
      refine ⟨hback, fun hb => ?_⟩
      have hfirst := heven (List.append_ne_nil_of_right_ne_nil front hb)
      have hrest := hsum hb
      omega

theorem Scanned.behind_mark (h : Scanned code (.rawData :: back)) :
    back = [] ∨ ∃ bytes, back = [.literal bytes] := by
  cases h with
  | escape _ hdata _ _ => exact absurd rfl hdata
  | mark _ => exact .inl rfl
  | data _ _ => exact .inr ⟨_, rfl⟩

/-- What stands behind the mark is no escape, so there is no mark in front of one. -/
theorem Scanned.mark_of_isLiteral (h : Scanned code (front ++ s :: back))
    (hmem : .rawData ∈ front) :
    s.isLiteral = true ∧ ∃ before, front = before ++ [.rawData] ∧ .rawData ∉ before := by
  obtain ⟨before, behind, rfl, hbefore⟩ := List.eq_append_cons_of_mem hmem
  rw [List.append_assoc, List.cons_append] at h
  obtain hb | ⟨bytes, hb⟩ := (h.drop hbefore).1.behind_mark
  · exact absurd hb (List.append_ne_nil_of_right_ne_nil behind (List.cons_ne_nil _ _))
  · cases behind with
    | nil =>
        obtain ⟨rfl, -⟩ := List.cons.inj hb
        exact ⟨rfl, before, rfl, hbefore⟩
    | cons t behind => cases behind <;> cases hb

/-- **Behind the mark there is no escape.** -/
theorem Scanned.data_last (h : Scanned code (front ++ .rawData :: back)) :
    back = [] ∨ ∃ bytes, back = [.literal bytes] := by
  have hmark : .rawData ∉ front := fun hmem => by cases (h.mark_of_isLiteral hmem).1
  exact (h.drop hmark).1.behind_mark

theorem Scanned.aligned (h : Scanned code (front ++ s :: back)) :
    total Section.length front % 2 = 0 := by
  by_cases hmem : .rawData ∈ front
  · obtain ⟨-, before, rfl, hbefore⟩ := h.mark_of_isLiteral hmem
    rw [List.append_assoc] at h
    have hsum := (h.drop hbefore).2 (List.cons_ne_nil _ _)
    rw [total_append]
    show (_ + (4 + 0)) % 2 = 0
    omega
  · exact (h.drop hmem).2 (List.cons_ne_nil s back)

/-- **An escape is read where its section starts.** -/
theorem Scanned.found (h : Scanned code (front ++ s :: back)) (hs : s.isLiteral = false) :
    readEscape? (code.drop (total Section.length front))
      = some (s, code.drop (total Section.length front + s.length)) := by
  have hmark : .rawData ∉ front := fun hmem => by
    rw [(h.mark_of_isLiteral hmem).1] at hs
    cases hs
  rw [← List.drop_drop]
  have hhere := (h.drop hmark).1
  generalize code.drop (total Section.length front) = here at hhere
  cases hhere with
  | plain _ _ => cases hs
  | between _ _ _ _ _ => cases hs
  | escape hescape _ hpiece _ =>
      rw [readEscape?_of_spelledBy hescape hpiece, ← Section.length_of_spelledBy hpiece,
        List.drop_left]
  | mark hpiece =>
      have hread := readEscape?_of_spelledBy (s := .rawData) trivial hpiece []
      rw [List.append_nil] at hread
      rw [hread, ← Section.length_of_spelledBy hpiece, List.drop_length]
  | data hpiece _ =>
      rw [readEscape?_of_spelledBy (s := .rawData) trivial hpiece,
        ← Section.length_of_spelledBy hpiece, List.drop_left]

/-- **No escape stands at an even place of plain code** in front of the mark. -/
theorem Scanned.maximal {bytes : Bytes} (h : Scanned code (front ++ .literal bytes :: back))
    (hmark : .rawData ∉ front) :
    Unescaped bytes.length (code.drop (total Section.length front)) := by
  have hhere := (h.drop hmark).1
  generalize code.drop (total Section.length front) = here at hhere
  cases hhere with
  | plain _ hplain => exact hplain
  | between _ _ hplain _ _ => exact hplain
  | escape hescape _ _ _ => exact hescape.elim

/-! ## 6. Scanning -/

/-- What it is for sections to be those of a piece of code. -/
structure Tokenizes (code : Bytes) (sections : List Section) : Prop where
  /-- The sections are spelled, one behind the other, by the bytes of the code. -/
  spelled : ∃ pieces, List.Forall₂ Section.SpelledBy sections pieces ∧ pieces.flatten = code
  length : total Section.length sections = code.length
  nonempty : ∀ bytes, .literal bytes ∈ sections → bytes ≠ []
  separated : sections.IsChain Separated
  /-- All sections, and so all escapes, start at even places. -/
  aligned : ∀ front s back, sections = front ++ s :: back → total Section.length front % 2 = 0
  found : ∀ front s back, sections = front ++ s :: back → s.isLiteral = false →
    readEscape? (code.drop (total Section.length front))
      = some (s, code.drop (total Section.length front + s.length))
  /-- In front of the mark there is no escape in plain code. -/
  maximal : ∀ front bytes back, sections = front ++ .literal bytes :: back → .rawData ∉ front →
    ∀ place, total Section.length front ≤ place →
      place < total Section.length front + bytes.length → place % 2 = 0 →
        readEscape? (code.drop place) = none
  /-- Behind the mark there is no escape. -/
  dataLast : ∀ front back, sections = front ++ .rawData :: back →
    back = [] ∨ ∃ bytes, back = [.literal bytes]

theorem Scanned.tokenizes (h : Scanned code sections) : Tokenizes code sections where
  spelled := h.spelled
  length := by
    obtain ⟨pieces, hpieces, rfl⟩ := h.spelled
    exact total_of_spelled hpieces
  nonempty _ := h.nonempty
  separated := h.separated
  aligned front s back he := by
    subst he
    exact h.aligned
  found front s back he hs := by
    subst he
    exact h.found hs
  maximal front bytes back he hmark place hle hlt heven := by
    subst he
    have hstart := h.aligned
    have hnone := h.maximal hmark (place - total Section.length front) (by omega) (by omega)
    rwa [List.drop_drop, Nat.add_sub_cancel' hle] at hnone
  dataLast front back he := by
    subst he
    exact h.data_last

/-- **Scanning loses nothing and misses nothing**: the sections of a piece of code account for all
    its bytes and for all its escapes, and are found again when they have been written back. -/
theorem scan_lossless (code : Bytes) :
    Tokenizes code (scan code) ∧ scan ((scan code).flatMap Section.write) = scan code :=
  ⟨(scanned_scan code).tokenizes, (scanned_scan code).write.scan_eq⟩

end AmigaBinary.Routine
