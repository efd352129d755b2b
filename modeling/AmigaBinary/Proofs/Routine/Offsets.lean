import AmigaBinary.Proofs.Routine.Tiling

/-!
# Where routines start

The offsets of routines follow from the routines alone (`offsetAt`): each one starts where the one
in front of it ends, and takes the bytes of its sections and, unless its target is the routine
behind it, those of the branch at its end. The places that are laid out are at these offsets
(`starts_iff`).
-/

namespace AmigaBinary.Routine

/-! ## 1. Lengths and offsets -/

/-- The bytes that routine number `i` takes. The branch at its end is left out where it leads to the
    routine behind it. -/
def lengthAt (sources : List Source) (i : Nat) : Nat :=
  match sources[i]? with
  | none => 0
  | some source =>
    match source.pattern.fallthroughTarget with
    | none => source.pattern.bodyLength
    | some routine =>
      if sources[i + 1]?.map Source.key = some (source.library, routine)
      then source.pattern.bodyLength else source.pattern.bodyLength + 4

/-- The offset of routine number `i`. A return instruction is in front of the first one. -/
def offsetAt (sources : List Source) : Nat → Nat
  | 0 => 2
  | i + 1 => offsetAt sources i + lengthAt sources i

/-- A routine of this name starts at the offset. -/
def Starts (sources : List Source) (name : UInt8 × UInt16) (offset : Nat) : Prop :=
  ∃ (i : Nat) (source : Source),
    sources[i]? = some source ∧ source.key = name ∧ offsetAt sources i = offset

variable {sources : List Source} {source : Source} {spot : Placement} {i : Nat}

/-- A name that a routine starts under is that of a routine. -/
theorem Starts.mem {name : UInt8 × UInt16} {offset : Nat} (h : Starts sources name offset) :
    name ∈ sources.map Source.key := by
  obtain ⟨i, source, hs, rfl, -⟩ := h
  exact List.mem_map_of_mem (List.mem_of_getElem? hs)

/-! ## 2. Places -/

theorem fallsInto_iff {next : Option Source} {routine : UInt16}
    (h : source.pattern.fallthroughTarget = some routine) :
    fallsInto source next = true ↔ next.map Source.key = some (source.library, routine) := by
  cases next with
  | none => simp [fallsInto]
  | some next =>
      rw [fallsInto, h, Bool.and_eq_true, beq_iff_eq, beq_iff_eq, Option.some.injEq,
        Option.map_some, Option.some.injEq, Source.key, Prod.mk.injEq]
      exact and_congr_right fun _ => eq_comm

/-- The places of routines with the routines. -/
theorem mem_zip_layout :
    (source, spot) ∈ sources.zip (layout sources) ↔
      ∃ i : Nat, sources[i]? = some source ∧ (layout sources)[i]? = some spot := by
  rw [List.mem_iff_getElem?]
  simp only [List.getElem?_zip_eq_some]

theorem length_layout (hs : sources[i]? = some source) (hp : (layout sources)[i]? = some spot) :
    spot.length = lengthAt sources i := by
  have hlength := length_of_mem_layoutFrom (mem_zip_layout.2 ⟨i, hs, hp⟩)
  rw [length_eq_of_tailLength hlength, fallthrough_layoutFrom hs hp]
  unfold lengthAt Pattern.length
  rw [hs]
  dsimp only
  cases htarget : source.pattern.fallthroughTarget with
  | none =>
      dsimp only
      split <;> rfl
  | some routine =>
      simp only [fallsInto_iff htarget]
      rfl

/-- Each place is behind the one in front of it. -/
theorem getElem?_succ_layoutFrom {offset : Nat} {next : Placement}
    (h : (layoutFrom sources offset)[i + 1]? = some next) :
    ∃ spot, (layoutFrom sources offset)[i]? = some spot ∧
      next.offset = spot.offset + spot.length := by
  induction sources generalizing offset i with
  | nil => cases h
  | cons source sources ih =>
      cases i with
      | succ i => exact ih h
      | zero =>
          refine ⟨_, rfl, ?_⟩
          cases sources with
          | nil => cases h
          | cons second sources =>
              obtain rfl := Option.some.inj h
              rfl

theorem exists_source (hp : (layout sources)[i]? = some spot) :
    ∃ source, sources[i]? = some source ∧ spot.key = source.key := by
  have hname : (sources.map Source.key)[i]? = some spot.key := by
    rw [← layoutFrom_keys sources startOffset, List.getElem?_map]
    exact congrArg _ hp
  rw [List.getElem?_map] at hname
  obtain ⟨source, hs, hkey⟩ := Option.map_eq_some_iff.1 hname
  exact ⟨source, hs, hkey.symm⟩

/-- **The places are at the offsets of their routines.** -/
theorem offset_layout (hp : (layout sources)[i]? = some spot) :
    spot.offset = offsetAt sources i := by
  induction i generalizing spot with
  | zero =>
      cases sources with
      | nil => cases hp
      | cons source sources =>
          obtain rfl := Option.some.inj hp
          rfl
  | succ i ih =>
      obtain ⟨last, hlast, hoffset⟩ := getElem?_succ_layoutFrom hp
      obtain ⟨source, hs, -⟩ := exists_source hlast
      rw [hoffset, ih hlast, length_layout hs hlast]
      rfl

theorem exists_spot (hs : sources[i]? = some source) :
    ∃ spot, (layout sources)[i]? = some spot := by
  obtain ⟨hi, -⟩ := List.getElem?_eq_some_iff.1 hs
  exact ⟨_, List.getElem?_eq_getElem (by rwa [layout, length_layoutFrom])⟩

/-- **Exactly where a routine starts is a place of its name.** -/
theorem starts_iff {name : UInt8 × UInt16} {offset : Nat} :
    Starts sources name offset ↔
      ∃ spot ∈ layout sources, spot.key = name ∧ spot.offset = offset := by
  constructor
  · intro h
    obtain ⟨i, source, hs, rfl, rfl⟩ := h
    obtain ⟨spot, hp⟩ := exists_spot hs
    obtain ⟨source', hs', hkey⟩ := exists_source hp
    obtain rfl := Option.some.inj (hs.symm.trans hs')
    exact ⟨spot, List.mem_of_getElem? hp, hkey, offset_layout hp⟩
  · intro h
    obtain ⟨spot, hm, rfl, rfl⟩ := h
    obtain ⟨i, hp⟩ := List.mem_iff_getElem?.1 hm
    obtain ⟨source, hs, hkey⟩ := exists_source hp
    exact ⟨i, source, hs, hkey.symm, (offset_layout hp).symm⟩

end AmigaBinary.Routine
