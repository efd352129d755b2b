import AmigaBinary.Proofs.Success
import AmigaBinary.Proofs.Words
import AmigaBinary.Routine.Link

/-!
# Where linked code lies

Lengths are predicted when routines are laid out, and bytes are written when they are linked. Both
agree: a section is linked to as many bytes as it is long (`length_of_linkSection`), a routine to as
many as its place says (`length_of_linkRoutine`). So the code of a routine lies at the offset of its
place (`lies_linkRoutine`), and that of a section behind those in front of it (`lies_linkSection`).
-/

namespace AmigaBinary.Routine

open M68k

/-! ## 1. Parts of code -/

/-- Whether `part` lies at an offset of `code`. -/
def Lies (part : Bytes) (position : Nat) (code : Bytes) : Prop :=
  ∃ front back, code = front ++ part ++ back ∧ front.length = position

theorem Lies.refl (code : Bytes) : Lies code 0 code :=
  ⟨[], [], by simp, rfl⟩

theorem Lies.trans {inner part code : Bytes} {position offset : Nat}
    (hi : Lies inner offset part) (hp : Lies part position code) :
    Lies inner (position + offset) code := by
  obtain ⟨f1, b1, rfl, rfl⟩ := hi
  obtain ⟨f2, b2, rfl, rfl⟩ := hp
  exact ⟨f2 ++ f1, b1 ++ b2, by simp, by simp⟩

theorem Lies.append_left {part code : Bytes} {position : Nat} (h : Lies part position code)
    (front : Bytes) : Lies part (front.length + position) (front ++ code) := by
  obtain ⟨f, b, rfl, rfl⟩ := h
  exact ⟨front ++ f, b, by simp, by simp⟩

theorem Lies.append_right {part code : Bytes} {position : Nat} (h : Lies part position code)
    (back : Bytes) : Lies part position (code ++ back) := by
  obtain ⟨f, b, rfl, rfl⟩ := h
  exact ⟨f, b ++ back, by simp, rfl⟩

theorem Lies.drop {part code : Bytes} {position : Nat} (h : Lies part position code) :
    ∃ back, code.drop position = part ++ back := by
  obtain ⟨f, b, rfl, rfl⟩ := h
  exact ⟨b, by simp⟩

theorem Lies.le_length {part code : Bytes} {position : Nat} (h : Lies part position code) :
    position + part.length ≤ code.length := by
  obtain ⟨f, b, rfl, rfl⟩ := h
  simp

/-! ## 2. Displacements, branches and loads -/

/-- **A displacement word leads from its field to the target.** -/
theorem displacementWord_leads {field target : Nat} {bytes : Bytes}
    (h : displacementWord field target = .ok bytes) :
    ∃ w, bytes = Bytes.ofWord16 w ∧ (field : Int) + Bytes.signed16 w = target := by
  unfold displacementWord at h
  dsimp only at h
  split at h
  · rename_i hr
    simp only [Except.ok.injEq] at h
    refine ⟨_, h.symm, ?_⟩
    rw [Bytes.signed16_ofInt hr.1 hr.2]
    omega
  · simp at h

theorem linkBranch_eq_ok {mnemonic : Mnemonic} {offset target : Nat} {f : Fragment}
    (h : linkBranch mnemonic offset target = .ok f) :
    ∃ condition w, mnemonic = .branch condition ∧
      ((offset + 2 : Nat) : Int) + Bytes.signed16 w = target ∧
      f = .plain (Bytes.ofWord16 (branchWord condition) ++ Bytes.ofWord16 w) := by
  unfold linkBranch at h
  split at h
  · rename_i condition
    obtain ⟨bytes, hb, h⟩ := bind_eq_ok.1 h
    obtain ⟨w, rfl, hw⟩ := displacementWord_leads hb
    exact ⟨condition, w, rfl, hw, (Except.ok.inj h).symm⟩
  · simp at h

theorem linkLoad_eq_ok {reg : UInt8} {offset target : Nat} {behind : UInt16} {f : Fragment}
    (h : linkLoad reg offset target behind = .ok f) :
    ∃ w, ((offset + 2 : Nat) : Int) + Bytes.signed16 w = target ∧
      f = .plain (Bytes.ofWord16 (loadRelative reg) ++ Bytes.ofWord16 w
        ++ Bytes.ofWord16 behind) := by
  obtain ⟨bytes, hb, h⟩ := bind_eq_ok.1 h
  obtain ⟨w, rfl, hw⟩ := displacementWord_leads hb
  exact ⟨w, hw, (Except.ok.inj h).symm⟩

theorem targetOffset_eq_ok {placements : List Placement} {library : UInt8} {routine : UInt16}
    {offset : Nat} (h : targetOffset placements library routine = .ok offset) :
    ∃ place, placements.find? (·.key == (library, routine)) = some place ∧
      place.offset = offset := by
  unfold targetOffset at h
  split at h
  · rename_i place hf
    exact ⟨place, hf, Except.ok.inj h⟩
  · simp at h

/-! ## 3. Lengths -/

variable {placements : List Placement} {own : UInt8}

/-- **A section is linked to as many bytes as it is long.** -/
theorem length_of_linkSection {offset : Nat} {s : Section} {f : Fragment}
    (h : linkSection placements own offset s = .ok f) : f.code.length = s.length := by
  cases s with
  | literal bytes =>
      rw [← Except.ok.inj h]
      rfl
  | branch mnemonic target =>
      obtain ⟨n, -, h⟩ := bind_eq_ok.1 h
      obtain ⟨condition, w, -, -, rfl⟩ := linkBranch_eq_ok h
      rfl
  | library call library routine =>
      obtain ⟨n, -, h⟩ := bind_eq_ok.1 h
      rw [← Except.ok.inj h]
      rfl
  | register call reg routine =>
      obtain ⟨n, -, h⟩ := bind_eq_ok.1 h
      obtain ⟨w, -, rfl⟩ := linkLoad_eq_ok h
      rfl
  | loadAddress reg routine =>
      obtain ⟨n, -, h⟩ := bind_eq_ok.1 h
      obtain ⟨w, -, rfl⟩ := linkLoad_eq_ok h
      rfl
  | rawData =>
      rw [← Except.ok.inj h]
      rfl

/-- The code behind the sections is as long as `last` says, the sections as long as they are. -/
theorem length_of_linkSections {last : Nat → Except Error Fragment} {offset rest : Nat}
    {sections : List Section} {f : Fragment}
    (hl : ∀ n g, last n = .ok g → g.code.length = rest)
    (h : linkSections placements own last offset sections = .ok f) :
    f.code.length = total Section.length sections + rest := by
  induction sections generalizing offset f with
  | nil => rw [hl _ _ h, total_nil, Nat.zero_add]
  | cons s sections ih =>
      obtain ⟨first, hf, h⟩ := bind_eq_ok.1 h
      obtain ⟨others, ho, h⟩ := bind_eq_ok.1 h
      rw [← Except.ok.inj h]
      show (first.code ++ others.code).length = _
      rw [List.length_append, length_of_linkSection hf, ih ho, total_cons, Nat.add_assoc]

/-- What a place adds to the length of the sections. -/
def Placement.tailLength (place : Placement) (pattern : Pattern) : Nat :=
  if place.fallthrough then 0 else if pattern.fallthroughTarget.isSome then 4 else 0

theorem length_of_linkFallthrough {source : Source} {place : Placement} {offset : Nat}
    {f : Fragment} (h : linkFallthrough placements source place offset = .ok f) :
    f.code.length = place.tailLength source.pattern := by
  unfold linkFallthrough at h
  unfold Placement.tailLength
  split at h
  · rename_i ht hf
    obtain ⟨n, -, h⟩ := bind_eq_ok.1 h
    obtain ⟨condition, w, -, -, rfl⟩ := linkBranch_eq_ok h
    rw [ht, hf]
    rfl
  · rename_i hn
    rw [← Except.ok.inj h]
    cases ht : source.pattern.fallthroughTarget with
    | none => simp [Fragment.plain]
    | some target =>
        cases hf : place.fallthrough with
        | true => rfl
        | false => exact absurd hf (hn target ht)

theorem length_place (source : Source) (next : Option Source) (offset : Nat) :
    (place source next offset).length
      = source.pattern.bodyLength + (place source next offset).tailLength source.pattern := by
  unfold place Placement.tailLength Pattern.length
  cases fallsInto source next <;> simp

/-- **A routine is linked to as many bytes as its place says.** -/
theorem length_of_linkRoutine {source : Source} {next : Option Source} {offset : Nat}
    {f : Fragment} (h : linkRoutine placements source (place source next offset) = .ok f) :
    f.code.length = (place source next offset).length := by
  rw [length_place, length_of_linkSections (fun _ _ => length_of_linkFallthrough) h]
  rfl

/-! ## 4. Where parts of a routine lie -/

/-- **A section lies behind those in front of it**, linked for the offset at which it lies. -/
theorem lies_linkSection {last : Nat → Except Error Fragment} {offset : Nat}
    {front back : List Section} {s : Section} {f : Fragment}
    (h : linkSections placements own last offset (front ++ s :: back) = .ok f) :
    ∃ g, linkSection placements own (offset + total Section.length front) s = .ok g ∧
      Lies g.code (total Section.length front) f.code := by
  induction front generalizing offset f with
  | nil =>
      obtain ⟨first, hf, h⟩ := bind_eq_ok.1 h
      obtain ⟨others, -, h⟩ := bind_eq_ok.1 h
      refine ⟨first, hf, ?_⟩
      rw [← Except.ok.inj h]
      exact (Lies.refl first.code).append_right others.code
  | cons a front ih =>
      obtain ⟨first, hf, h⟩ := bind_eq_ok.1 h
      obtain ⟨others, ho, h⟩ := bind_eq_ok.1 h
      obtain ⟨g, hg, hl⟩ := ih ho
      refine ⟨g, by rw [total_cons, ← Nat.add_assoc]; exact hg, ?_⟩
      rw [← Except.ok.inj h, total_cons, ← length_of_linkSection hf]
      exact hl.append_left first.code

/-- The end of a routine lies behind all its sections. -/
theorem lies_last {last : Nat → Except Error Fragment} {offset : Nat} {sections : List Section}
    {f : Fragment} (h : linkSections placements own last offset sections = .ok f) :
    ∃ g, last (offset + total Section.length sections) = .ok g ∧
      Lies g.code (total Section.length sections) f.code := by
  induction sections generalizing offset f with
  | nil => exact ⟨f, h, Lies.refl f.code⟩
  | cons a sections ih =>
      obtain ⟨first, hf, h⟩ := bind_eq_ok.1 h
      obtain ⟨others, ho, h⟩ := bind_eq_ok.1 h
      obtain ⟨g, hg, hl⟩ := ih ho
      refine ⟨g, by rw [total_cons, ← Nat.add_assoc]; exact hg, ?_⟩
      rw [← Except.ok.inj h, total_cons, ← length_of_linkSection hf]
      exact hl.append_left first.code

/-! ## 5. Where routines lie -/

/-- **A routine lies at the offset of its place**, here relative to that of the first one. -/
theorem lies_linkRoutine {sources : List Source} {offset : Nat} {f : Fragment}
    (h : linkRoutines placements (sources.zip (layoutFrom sources offset)) = .ok f)
    {source : Source} {spot : Placement}
    (hm : (source, spot) ∈ sources.zip (layoutFrom sources offset)) :
    ∃ g start, linkRoutine placements source spot = .ok g ∧ Lies g.code start f.code ∧
      spot.offset = offset + start := by
  induction sources generalizing offset f with
  | nil => simp at hm
  | cons a sources ih =>
      obtain ⟨first, hf, h⟩ := bind_eq_ok.1 h
      obtain ⟨others, ho, h⟩ := bind_eq_ok.1 h
      rw [← Except.ok.inj h]
      rcases List.mem_cons.1 hm with he | hm
      · obtain ⟨rfl, rfl⟩ := Prod.mk.inj he
        exact ⟨first, 0, hf, (Lies.refl first.code).append_right others.code, rfl⟩
      · obtain ⟨g, start, hg, hl, hs⟩ := ih ho hm
        have he := length_of_linkRoutine hf
        refine ⟨g, first.code.length + start, hg, hl.append_left first.code, ?_⟩
        rw [hs, he, Nat.add_assoc]

theorem layoutFrom_keys (sources : List Source) (offset : Nat) :
    (layoutFrom sources offset).map Placement.key = sources.map Source.key := by
  induction sources generalizing offset with
  | nil => rfl
  | cons a sources ih =>
      simp only [layoutFrom, List.map_cons, ih]
      rfl

theorem length_layoutFrom (sources : List Source) (offset : Nat) :
    (layoutFrom sources offset).length = sources.length := by
  have hkeys := congrArg List.length (layoutFrom_keys sources offset)
  rwa [List.length_map, List.length_map] at hkeys

/-- The length of a place is that of the sections and of what stands behind them. -/
theorem length_of_mem_layoutFrom {sources : List Source} {offset : Nat} {source : Source}
    {spot : Placement} (hm : (source, spot) ∈ sources.zip (layoutFrom sources offset)) :
    spot.length = source.pattern.bodyLength + spot.tailLength source.pattern := by
  induction sources generalizing offset with
  | nil => simp at hm
  | cons a sources ih =>
      rcases List.mem_cons.1 hm with he | hm
      · obtain ⟨rfl, rfl⟩ := Prod.mk.inj he
        exact length_place source _ offset
      · exact ih hm

/-- **A routine that falls through lies right in front of the one it falls into.** -/
theorem next_of_fallthrough {sources : List Source} {offset : Nat} {source : Source}
    {spot : Placement} (hm : (source, spot) ∈ sources.zip (layoutFrom sources offset))
    (hf : spot.fallthrough = true) :
    ∃ next ∈ layoutFrom sources offset,
      source.pattern.fallthroughTarget = some next.routine ∧ next.library = source.library ∧
      next.offset = spot.offset + spot.length := by
  induction sources generalizing offset with
  | nil => simp at hm
  | cons a sources ih =>
      rcases List.mem_cons.1 hm with he | hm
      · obtain ⟨rfl, rfl⟩ := Prod.mk.inj he
        cases sources with
        | nil => simp [place, fallsInto] at hf
        | cons b sources =>
            have hab : fallsInto source (some b) = true := hf
            simp only [fallsInto, Bool.and_eq_true, beq_iff_eq] at hab
            refine ⟨_, List.mem_cons_of_mem _ List.mem_cons_self, hab.2, hab.1, rfl⟩
      · obtain ⟨next, hn, hr⟩ := ih hm
        exact ⟨next, List.mem_cons_of_mem _ hn, hr⟩

/-! ## 6. Names -/

/-- Where no name repeats, and none of `seen` comes up, the names differ from each other. -/
theorem nodup_of_firstRepeated? {seen : List (UInt8 × UInt16)} {sources : List Source}
    (h : firstRepeated? seen sources = none) :
    (sources.map Source.key).Nodup ∧ ∀ source ∈ sources, source.key ∉ seen := by
  induction sources generalizing seen with
  | nil => simp
  | cons a sources ih =>
      rw [firstRepeated?] at h
      split at h
      · simp at h
      · rename_i hn
        obtain ⟨h1, h2⟩ := ih h
        simp only [List.contains_iff_mem] at hn
        refine ⟨?_, ?_⟩
        · rw [List.map_cons, List.nodup_cons]
          refine ⟨fun hm => ?_, h1⟩
          obtain ⟨b, hb, he⟩ := List.mem_map.1 hm
          exact h2 b hb (he ▸ List.mem_cons_self)
        · intro b hb
          rcases List.mem_cons.1 hb with rfl | hb
          · exact hn
          · exact fun hm => h2 b hb (List.mem_cons_of_mem _ hm)

/-- Where the names differ, each place is found by its name. -/
theorem find?_of_nodup {spots : List Placement} {spot : Placement}
    (hn : (spots.map Placement.key).Nodup) (hm : spot ∈ spots) :
    spots.find? (·.key == spot.key) = some spot := by
  induction spots with
  | nil => simp at hm
  | cons a spots ih =>
      rw [List.map_cons, List.nodup_cons] at hn
      rcases List.mem_cons.1 hm with rfl | hm
      · simp
      · have hne : a.key ≠ spot.key := fun he => hn.1 (he ▸ List.mem_map_of_mem hm)
        rw [List.find?_cons_of_neg (by simpa using hne)]
        exact ih hn.2 hm

/-! ## 7. Linked routines -/

/-- What a linked list of routines is made of. -/
theorem link_eq_ok {sources : List Source} {linked : Linked} (h : link sources = .ok linked) :
    ∃ f, linkRoutines linked.routines (sources.zip (layoutFrom sources startOffset)) = .ok f ∧
      linked.code = Bytes.ofWord16 rts ++ f.code ∧
      linked.relocations = f.relocations ∧ linked.routines = layoutFrom sources startOffset ∧
      (sources.map Source.key).Nodup := by
  unfold link at h
  split at h
  · simp at h
  · rename_i hr
    rw [repeated?_eq] at hr
    obtain ⟨f, hf, h⟩ := bind_eq_ok.1 h
    obtain rfl := Except.ok.inj h
    exact ⟨f, hf, rfl, rfl, rfl, (nodup_of_firstRepeated? hr).1⟩

end AmigaBinary.Routine
