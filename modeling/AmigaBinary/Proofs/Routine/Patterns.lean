import AmigaBinary.Proofs.Routine.Scanning
import AmigaBinary.Proofs.Routine.Trimming

/-!
# Patterns of routines

A routine is trimmed at most twice: a marker is taken off its end, and after that a load of D2 is
taken out from in front of its return (`trims_iff`). Its pattern tells the sections of what is left,
all of them, and the branches at both their ends (`Pattern.ofCode_tells`). As the branch that is
taken off the end counts in its length, the pattern is as long as the code without its endings
(`Pattern.length_ofCode`). All that is taken off has an even length, and so does what is left of
code of even length (`Pattern.even_ofCode`).
-/

namespace AmigaBinary.Routine

variable {code bytes : Bytes}

namespace Pattern

/-! ## 1. Sections -/

theorem length_eq (pattern : Pattern) :
    pattern.length = pattern.bodyLength ∨ pattern.length = pattern.bodyLength + 4 := by
  unfold length
  split
  · exact .inr rfl
  · exact .inl rfl

/-- A pattern is as long as all its sections: the branch at its end counts. -/
theorem length_allSections (pattern : Pattern) :
    total Section.length pattern.allSections = pattern.length := by
  rw [allSections, total_append, length, bodyLength]
  cases pattern.fallthroughTarget with
  | none => rfl
  | some target => rfl

/-- **A pattern is as long as the sections that it is made of.** -/
theorem length_ofSections (sections : List Section) :
    (ofSections sections).length = total Section.length sections := by
  rw [← length_allSections, allSections_ofSections]

/-! ## 2. Code -/

/-- The pattern of a routine is as long as its code without the endings. -/
theorem length_ofCode (code : Bytes) : (ofCode code).length = (trimmed code).length := by
  rw [ofCode, length_ofSections, (scanned_scan _).tokenizes.length]

theorem even_trimmed (h : code.length % 2 = 0) :
    (trimmed code).length % 2 = 0 := by
  have hmarker : (dropMarker code).length % 2 = 0 := by
    rcases dropMarker_cases code with hsame | hcut
    · rw [hsame]
      exact h
    · have hlen := congrArg List.length hcut
      rw [List.length_append] at hlen
      have hfour : parameterMarker.length = 4 := rfl
      omega
  unfold trimmed
  rcases dropTypeLoad_cases (dropMarker code) with hsame | ⟨bytes, type, -, hbytes, hdrop⟩
  · rw [hsame]
    exact hmarker
  · rw [hbytes, List.length_append] at hmarker
    rw [hdrop, List.length_append]
    have hfour : (typedReturn type []).length = 4 := rfl
    have htwo : [(0x4E : UInt8), 0x75].length = 2 := rfl
    omega

/-- **The pattern of a routine has even lengths** where the code of the routine has one, with and
    without the branch at its end. -/
theorem even_ofCode (h : code.length % 2 = 0) :
    (ofCode code).length % 2 = 0 ∧ (ofCode code).bodyLength % 2 = 0 := by
  have heven := even_trimmed h
  rw [← length_ofCode] at heven
  have hbody := (ofCode code).length_eq
  exact ⟨heven, by omega⟩

end Pattern

/-! ## 3. Endings -/

/-- At most one marker is taken off the end. -/
inductive Unmarks : Bytes → Bytes → Prop where
  | marked (bytes : Bytes) : Unmarks (bytes ++ Bytes.ascii "GetP") bytes
  | plain {code : Bytes} (h : ¬ Bytes.ascii "GetP" <:+ code) : Unmarks code code

/-- A load of D2 with 0, 1 or 2 is taken out from in front of a return at the end. -/
inductive Untypes : Bytes → Bytes → Prop where
  | typed (bytes : Bytes) {type : UInt8} (h : type ≤ 2) :
      Untypes (bytes ++ [0x74, type, 0x4E, 0x75]) (bytes ++ [0x4E, 0x75])
  | plain {code : Bytes} (h : ∀ type ≤ 2, ¬ [0x74, type, 0x4E, 0x75] <:+ code) : Untypes code code

/-- A routine and what is left of it when its endings have been trimmed, the marker first. -/
def Trims (code bytes : Bytes) : Prop :=
  ∃ unmarked, Unmarks code unmarked ∧ Untypes unmarked bytes

theorem dropMarker_append (bytes : Bytes) : dropMarker (bytes ++ Bytes.ascii "GetP") = bytes := by
  have hlen : (bytes ++ Bytes.ascii "GetP").length - 4 = bytes.length := by
    rw [List.length_append]
    exact Nat.add_sub_cancel bytes.length 4
  have hsuffix : parameterMarker.isSuffixOf (bytes ++ Bytes.ascii "GetP") = true :=
    List.isSuffixOf_iff_suffix.2 (List.suffix_append bytes _)
  unfold dropMarker
  rw [if_pos hsuffix, hlen, List.take_left]

theorem dropMarker_of_not_suffix (h : ¬ Bytes.ascii "GetP" <:+ code) : dropMarker code = code :=
  if_neg fun hs => h (List.isSuffixOf_iff_suffix.1 hs)

theorem unmarks_iff : Unmarks code bytes ↔ bytes = dropMarker code := by
  constructor
  · intro h
    cases h with
    | marked => exact (dropMarker_append bytes).symm
    | plain h => exact (dropMarker_of_not_suffix h).symm
  · intro h
    subst h
    by_cases hs : Bytes.ascii "GetP" <:+ code
    · obtain ⟨front, rfl⟩ := hs
      rw [dropMarker_append]
      exact .marked front
    · rw [dropMarker_of_not_suffix hs]
      exact .plain hs

theorem dropTypeLoad_append {type : UInt8} (h : type ≤ 2) (bytes : Bytes) :
    dropTypeLoad (bytes ++ [0x74, type, 0x4E, 0x75]) = bytes ++ [0x4E, 0x75] := by
  have hlen : (bytes ++ [0x74, type, 0x4E, 0x75]).length - 4 = bytes.length := by
    rw [List.length_append]
    exact Nat.add_sub_cancel bytes.length 4
  unfold dropTypeLoad
  rw [hlen, List.drop_left, List.take_left]
  exact if_pos h

theorem dropTypeLoad_of_not_suffix (h : ∀ type ≤ 2, ¬ [0x74, type, 0x4E, 0x75] <:+ code) :
    dropTypeLoad code = code := by
  rcases dropTypeLoad_cases code with hsame | ⟨front, type, htype, hcode, -⟩
  · exact hsame
  · exact absurd ⟨front, hcode.symm⟩ (h type htype)

theorem untypes_iff : Untypes code bytes ↔ bytes = dropTypeLoad code := by
  constructor
  · intro h
    cases h with
    | typed front htype => exact (dropTypeLoad_append htype front).symm
    | plain h => exact (dropTypeLoad_of_not_suffix h).symm
  · intro h
    subst h
    by_cases hs : ∃ type ≤ 2, [0x74, type, 0x4E, 0x75] <:+ code
    · obtain ⟨type, htype, front, rfl⟩ := hs
      rw [dropTypeLoad_append htype]
      exact .typed front htype
    · have hplain : ∀ type ≤ 2, ¬ [0x74, type, 0x4E, 0x75] <:+ code := fun type htype h =>
        hs ⟨type, htype, h⟩
      rw [dropTypeLoad_of_not_suffix hplain]
      exact .plain hplain

/-- **A routine is trimmed in one way.** -/
theorem trims_iff : Trims code bytes ↔ bytes = trimmed code := by
  constructor
  · intro h
    obtain ⟨unmarked, hmarker, htype⟩ := h
    rw [untypes_iff.1 htype, unmarks_iff.1 hmarker]
    rfl
  · intro h
    exact ⟨dropMarker code, unmarks_iff.2 rfl, untypes_iff.2 h⟩

/-! ## 4. All that a pattern tells -/

/-- **The pattern of a routine tells all its sections and the branches at both their ends.** The
    routine is trimmed in one way, the pattern has the length of what is left, and it is the only
    one that tells the sections of that. Where it starts by branching to is told by its first
    section, or, if it has none, by the branch that was taken off its end. -/
theorem Pattern.ofCode_tells (code : Bytes) :
    ∃ bytes, (∀ other, Trims code other ↔ other = bytes) ∧
      (ofCode code).length = bytes.length ∧
      (∀ pattern : Pattern, pattern.Tells (scan bytes) ↔ pattern = ofCode code) ∧
      (ofCode code).redirectTarget =
        match (ofCode code).sections with
        | [] => (ofCode code).fallthroughTarget
        | first :: _ => braTarget? first :=
  ⟨trimmed code, fun _ => trims_iff, length_ofCode code, fun _ => tells_iff,
    redirectTarget_ofSections (scan (trimmed code))⟩

end AmigaBinary.Routine
