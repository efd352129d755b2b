import AmigaBinary.Routine.Pattern

/-!
# What a pattern tells

A pattern tells all sections that it is made of and the branches at both their ends, and there is
one such pattern only (`Pattern.tells_iff`). The branch at the end is taken off before the first
section is looked at, so a routine that is one branch has no section left that could tell where it
starts by branching to; then this is where it ends by branching to
(`Pattern.redirectTarget_ofSections`).
-/

namespace AmigaBinary.Routine

variable {sections : List Section} {pattern : Pattern}

/-! ## 1. Unconditional branches -/

/-- An unconditional branch to a routine. -/
def bra (target : UInt16) : Section :=
  .branch (.branch .always) target

theorem braTarget?_eq_some {s : Section} {target : UInt16} :
    braTarget? s = some target ↔ s = bra target := by
  constructor
  · intro h
    unfold braTarget? at h
    split at h
    · cases h
      rfl
    · cases h
  · intro h
    rw [h]
    rfl

/-! ## 2. All sections of a pattern -/

namespace Pattern

/-- The sections of a pattern with the branch that its fallthrough target stands for. -/
def allSections (pattern : Pattern) : List Section :=
  pattern.sections ++ (pattern.fallthroughTarget.map bra).toList

theorem fallthroughTarget_ofSections {target : UInt16} :
    (ofSections sections).fallthroughTarget = some target
      ↔ sections.getLast? = some (bra target) := by
  unfold ofSections
  dsimp only
  rw [Option.bind_eq_some_iff]
  simp only [braTarget?_eq_some, exists_eq_right]

theorem allSections_ofSections (sections : List Section) :
    (ofSections sections).allSections = sections := by
  cases ht : (ofSections sections).fallthroughTarget with
  | none =>
      have hlast : sections.getLast?.bind braTarget? = none := ht
      have hsame : (ofSections sections).sections = sections := by
        unfold ofSections
        dsimp only
        rw [hlast]
        rfl
      rw [allSections, ht, hsame]
      exact List.append_nil sections
  | some target =>
      obtain ⟨front, rfl⟩ := List.getLast?_eq_some_iff.1 (fallthroughTarget_ofSections.1 ht)
      have hfront : (ofSections (front ++ [bra target])).sections = front := by
        unfold ofSections
        dsimp only
        rw [List.getLast?_concat, List.dropLast_concat]
        rfl
      rw [allSections, ht, hfront]
      rfl

/-- **The first section that is left tells where a routine starts by branching to.** If none is
    left, the branch at the end has been the first one too. -/
theorem redirectTarget_ofSections (sections : List Section) :
    (ofSections sections).redirectTarget =
      match (ofSections sections).sections with
      | [] => (ofSections sections).fallthroughTarget
      | first :: _ => braTarget? first := by
  have hall := allSections_ofSections sections
  have hhead : (ofSections sections).redirectTarget = sections.head?.bind braTarget? := rfl
  rw [hhead]
  cases hkept : (ofSections sections).sections with
  | nil =>
      rw [allSections, hkept, List.nil_append] at hall
      rw [← hall]
      cases (ofSections sections).fallthroughTarget with
      | none => rfl
      | some target => rfl
  | cons first kept =>
      rw [allSections, hkept, List.cons_append] at hall
      rw [← hall]
      rfl

/-! ## 3. The one pattern of a list of sections -/

/-- What a pattern tells of a list of sections. -/
structure Tells (pattern : Pattern) (sections : List Section) : Prop where
  /-- No section is lost, and none is in another place. -/
  all : pattern.allSections = sections
  /-- The routine ends by branching. -/
  ends : ∀ target, pattern.fallthroughTarget = some target ↔ sections.getLast? = some (bra target)
  /-- The routine starts by branching. -/
  starts : ∀ target, pattern.redirectTarget = some target ↔ sections.head? = some (bra target)

theorem tells_ofSections (sections : List Section) : (ofSections sections).Tells sections where
  all := allSections_ofSections sections
  ends _ := fallthroughTarget_ofSections
  starts target := by
    show sections.head?.bind braTarget? = some target ↔ _
    rw [Option.bind_eq_some_iff]
    simp only [braTarget?_eq_some, exists_eq_right]

/-- **A list of sections has one pattern only.** -/
theorem tells_iff : pattern.Tells sections ↔ pattern = ofSections sections := by
  constructor
  · intro h
    have hof := tells_ofSections sections
    have hends : pattern.fallthroughTarget = (ofSections sections).fallthroughTarget :=
      Option.ext fun target => (h.ends target).trans (hof.ends target).symm
    have hstarts : pattern.redirectTarget = (ofSections sections).redirectTarget :=
      Option.ext fun target => (h.starts target).trans (hof.starts target).symm
    have hsections : pattern.sections = (ofSections sections).sections := by
      have hall := h.all.trans hof.all.symm
      rw [allSections, allSections, hends] at hall
      exact List.append_cancel_right hall
    obtain ⟨kept, first, last⟩ := pattern
    dsimp only at hends hstarts hsections
    rw [hends, hstarts, hsections]
  · intro h
    rw [h]
    exact tells_ofSections sections

end Pattern

end AmigaBinary.Routine
