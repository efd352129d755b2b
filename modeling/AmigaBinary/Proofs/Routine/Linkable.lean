import AmigaBinary.Proofs.Routine.Offsets

/-!
# Which routines link

Linking fails for one of four reasons: a name comes up twice, a name has no routine, a branch is no
branch, or a routine is further away than a word displacement reaches. `Linkable` excludes the four,
by the names of the routines and the offsets that they start at, and `link_succeeds_iff` says that
nothing else is needed. Names are looked at first: the error for a repeated one is there whatever
else is wrong.
-/

namespace AmigaBinary.Routine

open M68k

/-! ## 1. What a section needs -/

/-- A word displacement leads from offset `field` to offset `target`. -/
def InReach (field target : Nat) : Prop :=
  -0x8000 ≤ (target : Int) - field ∧ (target : Int) - field ≤ 0x7FFF

instance (field target : Nat) : Decidable (InReach field target) :=
  inferInstanceAs (Decidable (_ ∧ _))

namespace Section

/-- The routine that a section names is reached by a displacement. -/
def IsRelative : Section → Prop
  | .branch _ _ | .register _ _ _ | .loadAddress _ _ => True
  | .literal _ | .library _ _ _ | .rawData => False

/-- What a section of a routine of library `own` needs at an offset: one of the routines has the
    name that it refers to, the displacement in it reaches where that one starts, and its mnemonic,
    if it is a branch, is one of the sixteen. -/
structure Links (sources : List Source) (own : UInt8) (offset : Nat) (s : Section) : Prop where
  reaches : ∀ owner routine, s.reference? = some (owner, routine) →
    ∃ target, Starts sources (if owner = 0 then own else owner, routine) target ∧
      (s.IsRelative → InReach (offset + 2) target)
  branches : ∀ mnemonic routine, s = .branch mnemonic routine → mnemonic.isBranch = true

end Section

variable {spots : List Placement} {sources : List Source} {own : UInt8}

theorem exists_displacementWord_iff {field target : Nat} :
    (∃ bytes, displacementWord field target = .ok bytes) ↔ InReach field target := by
  unfold displacementWord InReach
  dsimp only
  split
  · rename_i h
    exact ⟨fun _ => ⟨h.1, Int.le_of_lt_add_one h.2⟩, fun _ => ⟨_, rfl⟩⟩
  · rename_i h
    constructor
    · rintro ⟨bytes, he⟩
      cases he
    · exact fun hreach => absurd ⟨hreach.1, Int.lt_add_one_of_le hreach.2⟩ h

theorem isBranch_iff {mnemonic : Mnemonic} :
    mnemonic.isBranch = true ↔ ∃ condition, mnemonic = .branch condition := by
  cases mnemonic <;> simp [Mnemonic.isBranch]

theorem exists_linkBranch_iff {mnemonic : Mnemonic} {offset target : Nat} :
    (∃ f, linkBranch mnemonic offset target = .ok f) ↔
      mnemonic.isBranch = true ∧ InReach (offset + 2) target := by
  rw [← exists_displacementWord_iff, isBranch_iff]
  constructor
  · rintro ⟨f, h⟩
    obtain ⟨condition, w, rfl, -⟩ := linkBranch_eq_ok h
    obtain ⟨bytes, hbytes, -⟩ := bind_eq_ok.1 h
    exact ⟨⟨condition, rfl⟩, bytes, hbytes⟩
  · rintro ⟨⟨condition, rfl⟩, bytes, hbytes⟩
    exact ⟨_, bind_eq_ok.2 ⟨bytes, hbytes, rfl⟩⟩

theorem exists_linkLoad_iff {reg : UInt8} {offset target : Nat} {behind : UInt16} :
    (∃ f, linkLoad reg offset target behind = .ok f) ↔ InReach (offset + 2) target := by
  rw [← exists_displacementWord_iff]
  constructor
  · rintro ⟨f, h⟩
    obtain ⟨bytes, hbytes, -⟩ := bind_eq_ok.1 h
    exact ⟨bytes, hbytes⟩
  · rintro ⟨bytes, hbytes⟩
    exact ⟨_, bind_eq_ok.2 ⟨bytes, hbytes, rfl⟩⟩

/-- Where names differ, a name leads to the offset of the place that has it. -/
theorem targetOffset_iff (hn : (spots.map Placement.key).Nodup) {library : UInt8}
    {routine : UInt16} {offset : Nat} :
    targetOffset spots library routine = .ok offset ↔
      ∃ target ∈ spots, target.key = (library, routine) ∧ target.offset = offset := by
  constructor
  · intro h
    obtain ⟨target, hfind, hoffset⟩ := targetOffset_eq_ok h
    exact ⟨target, List.mem_of_find?_eq_some hfind, by simpa using List.find?_some hfind,
      hoffset⟩
  · rintro ⟨target, hm, hkey, rfl⟩
    have hfind := find?_of_nodup hn hm
    rw [hkey] at hfind
    unfold targetOffset
    rw [hfind]

/-- Where the names of routines differ, a name leads to where its routine starts. -/
theorem targetOffset_layout_iff (hn : (sources.map Source.key).Nodup) {library : UInt8}
    {routine : UInt16} {offset : Nat} :
    targetOffset (layout sources) library routine = .ok offset ↔
      Starts sources (library, routine) offset := by
  have hspots : ((layout sources).map Placement.key).Nodup := by
    rw [layout, layoutFrom_keys]
    exact hn
  rw [targetOffset_iff hspots, starts_iff]

/-- What is linked to a name succeeds exactly if a routine has the name and it succeeds there. -/
theorem exists_target_bind_iff (hn : (sources.map Source.key).Nodup) {library : UInt8}
    {routine : UInt16} {g : Nat → Except Error Fragment} :
    (∃ f, (targetOffset (layout sources) library routine >>= g) = .ok f) ↔
      ∃ target, Starts sources (library, routine) target ∧ ∃ f, g target = .ok f := by
  constructor
  · intro h
    obtain ⟨f, h⟩ := h
    obtain ⟨target, htarget, hf⟩ := bind_eq_ok.1 h
    exact ⟨target, (targetOffset_layout_iff hn).1 htarget, f, hf⟩
  · intro h
    obtain ⟨target, hstarts, f, hf⟩ := h
    exact ⟨f, bind_eq_ok.2 ⟨target, (targetOffset_layout_iff hn).2 hstarts, hf⟩⟩

/-- A section that names no routine needs nothing. -/
theorem Section.Links.of_plain {s : Section} {offset : Nat} (hs : s.reference? = none) :
    s.Links sources own offset where
  reaches _ _ h := by
    rw [hs] at h
    cases h
  branches _ _ h := by
    subst h
    cases hs

/-- What a section that names a routine needs. -/
theorem Section.links_iff {s : Section} {offset : Nat} {owner : UInt8} {routine : UInt16}
    (hs : s.reference? = some (owner, routine)) :
    s.Links sources own offset ↔
      (∃ target, Starts sources (if owner = 0 then own else owner, routine) target ∧
        (s.IsRelative → InReach (offset + 2) target)) ∧
      ∀ mnemonic routine, s = .branch mnemonic routine → mnemonic.isBranch = true := by
  constructor
  · exact fun h => ⟨h.reaches owner routine hs, h.branches⟩
  · rintro ⟨htarget, hbranches⟩
    refine ⟨fun owner' routine' hs' => ?_, hbranches⟩
    obtain ⟨rfl, rfl⟩ := Prod.mk.inj (Option.some.inj (hs.symm.trans hs'))
    exact htarget

/-- **A section is linked exactly if it has what it needs.** -/
theorem exists_linkSection_iff (hn : (sources.map Source.key).Nodup) {offset : Nat}
    {s : Section} :
    (∃ f, linkSection (layout sources) own offset s = .ok f) ↔ s.Links sources own offset := by
  cases s with
  | literal bytes | rawData =>
      exact ⟨fun _ => .of_plain rfl, fun _ => ⟨_, rfl⟩⟩
  | library call owner routine =>
      rw [Section.links_iff rfl, linkSection, exists_target_bind_iff hn]
      constructor
      · rintro ⟨target, hstarts, -⟩
        refine ⟨⟨target, hstarts, False.elim⟩, ?_⟩
        rintro _ _ ⟨⟩
      · rintro ⟨⟨target, hstarts, -⟩, -⟩
        exact ⟨target, hstarts, _, rfl⟩
  | branch mnemonic routine =>
      rw [Section.links_iff rfl, linkSection, exists_target_bind_iff hn]
      simp only [exists_linkBranch_iff]
      constructor
      · rintro ⟨target, hstarts, hbranch, hreach⟩
        refine ⟨⟨target, hstarts, fun _ => hreach⟩, ?_⟩
        rintro _ _ ⟨⟩
        exact hbranch
      · rintro ⟨⟨target, hstarts, hreach⟩, hbranch⟩
        exact ⟨target, hstarts, hbranch _ _ rfl, hreach trivial⟩
  | register call reg routine | loadAddress reg routine =>
      rw [Section.links_iff rfl, linkSection, exists_target_bind_iff hn]
      simp only [exists_linkLoad_iff]
      constructor
      · rintro ⟨target, hstarts, hreach⟩
        refine ⟨⟨target, hstarts, fun _ => hreach⟩, ?_⟩
        rintro _ _ ⟨⟩
      · rintro ⟨⟨target, hstarts, hreach⟩, -⟩
        exact ⟨target, hstarts, hreach trivial⟩

/-! ## 2. What a routine needs -/

/-- Sections are linked exactly if each of them is at its offset, and what is behind them. -/
theorem exists_linkSections_iff {last : Nat → Except Error Fragment} {offset : Nat}
    {sections : List Section} :
    (∃ f, linkSections spots own last offset sections = .ok f) ↔
      (∀ front s back, sections = front ++ s :: back →
        ∃ f, linkSection spots own (offset + total Section.length front) s = .ok f) ∧
      ∃ f, last (offset + total Section.length sections) = .ok f := by
  constructor
  · rintro ⟨f, h⟩
    constructor
    · rintro front s back rfl
      obtain ⟨g, hg, -⟩ := lies_linkSection h
      exact ⟨g, hg⟩
    · obtain ⟨g, hg, -⟩ := lies_last h
      exact ⟨g, hg⟩
  · rintro ⟨hsections, hlast⟩
    induction sections generalizing offset with
    | nil => exact hlast
    | cons a sections ih =>
        obtain ⟨first, hfirst⟩ := hsections [] a sections rfl
        have hrest : ∃ f, linkSections spots own last (offset + a.length) sections = .ok f := by
          refine ih (fun front s back he => ?_) (by rw [Nat.add_assoc]; exact hlast)
          have hs := hsections (a :: front) s back (congrArg (a :: ·) he)
          rw [total_cons, ← Nat.add_assoc] at hs
          exact hs
        obtain ⟨others, hothers⟩ := hrest
        exact ⟨_, bind_eq_ok.2 ⟨first, hfirst, bind_eq_ok.2 ⟨others, hothers, rfl⟩⟩⟩

/-- The branch at the end of a routine is linked exactly if it is left out, or its target is a
    routine that it reaches. -/
theorem exists_linkFallthrough_iff (hn : (sources.map Source.key).Nodup) {source : Source}
    {spot : Placement} {offset : Nat} :
    (∃ f, linkFallthrough (layout sources) source spot offset = .ok f) ↔
      ∀ routine, source.pattern.fallthroughTarget = some routine → spot.fallthrough = false →
        ∃ target, Starts sources (source.library, routine) target ∧
          InReach (offset + 2) target := by
  unfold linkFallthrough
  split
  · rename_i routine hroutine hfallthrough
    rw [exists_target_bind_iff hn]
    simp only [exists_linkBranch_iff]
    constructor
    · rintro ⟨target, hstarts, -, hreach⟩ routine' hroutine' -
      obtain rfl := Option.some.inj (hroutine.symm.trans hroutine')
      exact ⟨target, hstarts, hreach⟩
    · intro h
      obtain ⟨target, hstarts, hreach⟩ := h routine hroutine hfallthrough
      exact ⟨target, hstarts, rfl, hreach⟩
  · rename_i hnot
    exact ⟨fun _ routine hroutine hfallthrough => absurd hfallthrough (hnot routine hroutine),
      fun _ => ⟨_, rfl⟩⟩

theorem exists_linkRoutines_iff {pairs : List (Source × Placement)} :
    (∃ f, linkRoutines spots pairs = .ok f) ↔
      ∀ source spot, (source, spot) ∈ pairs → ∃ f, linkRoutine spots source spot = .ok f := by
  induction pairs with
  | nil => exact ⟨fun _ _ _ hm => absurd hm List.not_mem_nil, fun _ => ⟨_, rfl⟩⟩
  | cons pair pairs ih =>
      obtain ⟨source, spot⟩ := pair
      constructor
      · rintro ⟨f, h⟩ source' spot' hm
        obtain ⟨first, hfirst, h⟩ := bind_eq_ok.1 h
        obtain ⟨others, hothers, -⟩ := bind_eq_ok.1 h
        rcases List.mem_cons.1 hm with he | hm
        · obtain ⟨rfl, rfl⟩ := Prod.mk.inj he
          exact ⟨first, hfirst⟩
        · exact ih.1 ⟨others, hothers⟩ source' spot' hm
      · intro hall
        obtain ⟨first, hfirst⟩ := hall source spot List.mem_cons_self
        obtain ⟨others, hothers⟩ := ih.2 fun source' spot' hm =>
          hall source' spot' (List.mem_cons_of_mem _ hm)
        exact ⟨_, bind_eq_ok.2 ⟨first, hfirst, bind_eq_ok.2 ⟨others, hothers, rfl⟩⟩⟩

/-! ## 3. Names that repeat -/

/-- **The first repeated name is found**: in front of its routine no name repeats, and one of them
    is this name. -/
theorem exists_of_firstRepeated? {seen : List (UInt8 × UInt16)} {sources : List Source}
    {source : Source} (h : firstRepeated? seen sources = some source) :
    ∃ front back, sources = front ++ source :: back ∧ (front.map Source.key).Nodup ∧
      (∀ s ∈ front, s.key ∉ seen) ∧ (source.key ∈ seen ∨ source.key ∈ front.map Source.key) := by
  induction sources generalizing seen with
  | nil => cases h
  | cons first sources ih =>
      rw [firstRepeated?] at h
      split at h
      · rename_i hseen
        obtain rfl := Option.some.inj h
        exact ⟨[], sources, rfl, List.nodup_nil, List.forall_mem_nil _,
          .inl (List.contains_iff_mem.1 hseen)⟩
      · rename_i hnew
        rw [List.contains_iff_mem] at hnew
        obtain ⟨front, back, rfl, hnodup, hfresh, hrepeated⟩ := ih h
        refine ⟨first :: front, back, rfl, ?_, ?_, ?_⟩
        · rw [List.map_cons, List.nodup_cons]
          refine ⟨fun hm => ?_, hnodup⟩
          obtain ⟨s, hs, hkey⟩ := List.mem_map.1 hm
          exact hfresh s hs (hkey ▸ List.mem_cons_self)
        · exact List.forall_mem_cons.2
            ⟨hnew, fun s hs hm => hfresh s hs (List.mem_cons_of_mem _ hm)⟩
        · rw [List.map_cons, List.mem_cons]
          rcases hrepeated with hm | hm
          · rcases List.mem_cons.1 hm with he | hm
            · exact .inr (.inl he)
            · exact .inl hm
          · exact .inr (.inr hm)

/-- **Names that repeat are refused first**, and the error has the first repeated one. -/
theorem link_of_repeated {sources : List Source} (h : ¬ (sources.map Source.key).Nodup) :
    ∃ front source back, sources = front ++ source :: back ∧ (front.map Source.key).Nodup ∧
      source.key ∈ front.map Source.key ∧
      link sources = .error (.duplicateRoutine source.library source.routine) := by
  cases hr : firstRepeated? [] sources with
  | none => exact absurd (nodup_of_firstRepeated? hr).1 h
  | some source =>
      obtain ⟨front, back, hsources, hnodup, -, hrepeated⟩ := exists_of_firstRepeated? hr
      refine ⟨front, source, back, hsources, hnodup,
        hrepeated.resolve_left List.not_mem_nil, ?_⟩
      rw [link, repeated?_eq, hr]

/-- Where no name repeats, linking is that of the routines at their places. -/
theorem exists_link_iff {sources : List Source} (h : (sources.map Source.key).Nodup) :
    (∃ linked, link sources = .ok linked) ↔
      ∃ f, linkRoutines (layout sources) (sources.zip (layout sources)) = .ok f := by
  cases hr : firstRepeated? [] sources with
  | some source =>
      obtain ⟨front, back, rfl, -, -, hrepeated⟩ := exists_of_firstRepeated? hr
      rw [List.map_append, List.nodup_append] at h
      exact absurd rfl (h.2.2 _ (hrepeated.resolve_left List.not_mem_nil) _ List.mem_cons_self)
  | none =>
      unfold link
      rw [repeated?_eq, hr]
      constructor
      · rintro ⟨linked, h⟩
        obtain ⟨f, hf, -⟩ := bind_eq_ok.1 h
        exact ⟨f, hf⟩
      · rintro ⟨f, hf⟩
        exact ⟨_, bind_eq_ok.2 ⟨f, hf, rfl⟩⟩

/-! ## 4. Which routines link -/

/-- What routines need to be linked. -/
structure Linkable (sources : List Source) : Prop where
  distinct : (sources.map Source.key).Nodup
  /-- Every section has what it needs, at its offset in its routine. -/
  sections : ∀ (i : Nat) source, sources[i]? = some source →
    ∀ front s back, source.pattern.sections = front ++ s :: back →
      s.Links sources source.library (offsetAt sources i + total Section.length front)
  /-- A routine that ends by branching to another one than the next one reaches it. -/
  ends : ∀ (i : Nat) source, sources[i]? = some source →
    ∀ routine, source.pattern.fallthroughTarget = some routine →
      sources[i + 1]?.map Source.key ≠ some (source.library, routine) →
      ∃ target, Starts sources (source.library, routine) target ∧
        InReach (offsetAt sources i + source.pattern.bodyLength + 2) target

/-- **Routines at their places are linked exactly if they have what they need.** -/
theorem exists_linkRoutines_layout_iff {sources : List Source}
    (hn : (sources.map Source.key).Nodup) :
    (∃ f, linkRoutines (layout sources) (sources.zip (layout sources)) = .ok f) ↔
      Linkable sources := by
  rw [exists_linkRoutines_iff]
  unfold linkRoutine
  simp only [exists_linkSections_iff, exists_linkSection_iff hn, exists_linkFallthrough_iff hn]
  constructor
  · intro h
    have hplaced (i : Nat) (source : Source) (hs : sources[i]? = some source) :
        ∃ spot, (layout sources)[i]? = some spot ∧ spot.offset = offsetAt sources i ∧
          (source, spot) ∈ sources.zip (layout sources) := by
      obtain ⟨spot, hp⟩ := exists_spot hs
      exact ⟨spot, hp, offset_layout hp, mem_zip_layout.2 ⟨i, hs, hp⟩⟩
    refine ⟨hn, fun i source hs => ?_, fun i source hs routine hroutine hnext => ?_⟩
    · obtain ⟨spot, -, hoffset, hm⟩ := hplaced i source hs
      rw [← hoffset]
      exact (h source spot hm).1
    · obtain ⟨spot, hp, hoffset, hm⟩ := hplaced i source hs
      rw [← hoffset]
      refine (h source spot hm).2 routine hroutine ?_
      rw [fallthrough_layoutFrom hs hp, Bool.eq_false_iff]
      exact mt (fallsInto_iff hroutine).1 hnext
  · intro h source spot hm
    obtain ⟨i, hs, hp⟩ := mem_zip_layout.1 hm
    rw [offset_layout hp]
    refine ⟨h.sections i source hs, fun routine hroutine hfallthrough => ?_⟩
    rw [fallthrough_layoutFrom hs hp, Bool.eq_false_iff] at hfallthrough
    exact h.ends i source hs routine hroutine (mt (fallsInto_iff hroutine).2 hfallthrough)

/-- Linked routines are linkable. -/
theorem linkable_of_link {sources : List Source} {linked : Linked}
    (h : link sources = .ok linked) : Linkable sources := by
  obtain ⟨f, hf, -, -, hp, hn⟩ := link_eq_ok h
  rw [hp] at hf
  exact (exists_linkRoutines_layout_iff hn).1 ⟨f, hf⟩

/-- **Exactly the linkable routines link**: no name repeats, every reference and every branch that
    is not left out names a routine, and one that a word displacement reaches where there is one,
    and every branch is a branch. Where a name repeats, the error is that the first repeated one
    does, whatever else is wrong. -/
theorem link_succeeds_iff (sources : List Source) :
    ((∃ linked, link sources = .ok linked) ↔ Linkable sources) ∧
    (¬ (sources.map Source.key).Nodup →
      ∃ front source back, sources = front ++ source :: back ∧ (front.map Source.key).Nodup ∧
        source.key ∈ front.map Source.key ∧
        link sources = .error (.duplicateRoutine source.library source.routine)) := by
  refine ⟨⟨?_, ?_⟩, link_of_repeated⟩
  · rintro ⟨linked, h⟩
    exact linkable_of_link h
  · intro h
    exact (exists_link_iff h.distinct).2 ((exists_linkRoutines_layout_iff h.distinct).2 h)

/-- Routines with every fault: a branch that is none and has no target, an end without one, and a
    name that comes up twice. -/
def faulty : List Source :=
  [⟨1, 1, ⟨[.branch .nop 9], none, none⟩⟩, ⟨1, 2, ⟨[.rawData], none, some 7⟩⟩,
    ⟨1, 1, ⟨[.literal [0x4E, 0x75]], none, none⟩⟩]

/-- A call of a routine of a library that is not there. -/
def unnamed : List Source :=
  [⟨1, 1, ⟨[.rawData, .library true 2 1], none, none⟩⟩]

/-- An end without a routine to branch to. -/
def unended : List Source :=
  [⟨1, 1, ⟨[.rawData], none, some 7⟩⟩]

/-- A branch to a routine that is there, by an instruction that is no branch. -/
def misbranched : List Source :=
  [⟨1, 1, ⟨[.branch .nop 1], none, none⟩⟩]

/-- A branch over so many bytes. -/
def spread (count : Nat) : List Source :=
  [⟨1, 1, ⟨[.branch (.branch .always) 2, .literal (List.replicate count 0)], none, none⟩⟩,
    ⟨1, 2, ⟨[.rawData], none, none⟩⟩]

theorem not_linkable_unnamed : ¬ Linkable unnamed := by
  intro h
  obtain ⟨target, hstarts, -⟩ := (h.sections 0 _ rfl [.rawData] _ [] rfl).reaches 2 1 rfl
  exact absurd hstarts.mem (by decide)

theorem not_linkable_unended : ¬ Linkable unended := by
  intro h
  obtain ⟨target, hstarts, -⟩ := h.ends 0 _ rfl 7 rfl (by decide)
  exact absurd hstarts.mem (by decide)

theorem not_linkable_misbranched : ¬ Linkable misbranched := by
  intro h
  exact absurd ((h.sections 0 _ rfl [] _ [] rfl).branches .nop 1 rfl) (by decide)

theorem starts_spread_iff {count target : Nat} :
    Starts (spread count) (1, 2) target ↔ target = count + 6 := by
  have hoffset : offsetAt (spread count) 1 = count + 6 := by
    simp [offsetAt, lengthAt, spread, Pattern.bodyLength, total, Section.length]
    omega
  constructor
  · intro h
    obtain ⟨i, source, hs, hkey, rfl⟩ := h
    rcases i with _ | _ | i
    · obtain rfl := Option.some.inj hs
      simp [Source.key] at hkey
    · exact hoffset
    · cases hs
  · intro h
    exact ⟨1, _, rfl, rfl, hoffset.trans h.symm⟩

/-- A branch leads over 0x7FFD bytes and no more. -/
theorem linkable_spread_iff {count : Nat} : Linkable (spread count) ↔ count ≤ 0x7FFD := by
  constructor
  · intro h
    obtain ⟨target, hstarts, hreach⟩ :=
      (h.sections 0 _ rfl [] _ [.literal _] rfl).reaches 0 2 rfl
    have hmax := (hreach trivial).2
    rw [starts_spread_iff.1 hstarts] at hmax
    simp only [offsetAt, total_nil] at hmax
    omega
  · intro hmax
    have hdistinct : [((1 : UInt8), (1 : UInt16)), (1, 2)].Nodup := by decide
    refine ⟨hdistinct, ?_, ?_⟩
    · intro i source hs front s back hsplit
      match i with
      | 0 =>
          obtain rfl := Option.some.inj hs
          match front with
          | [] =>
              obtain rfl := (List.cons.inj hsplit).1
              refine (Section.links_iff rfl).2 ⟨⟨_, starts_spread_iff.2 rfl, fun _ => ?_⟩, ?_⟩
              · constructor <;> simp only [offsetAt, total_nil] <;> omega
              · rintro _ _ ⟨⟩
                rfl
          | [_] =>
              obtain rfl := (List.cons.inj (List.cons.inj hsplit).2).1
              exact .of_plain rfl
          | _ :: _ :: _ => simp at hsplit
      | 1 =>
          obtain rfl := Option.some.inj hs
          match front with
          | [] =>
              obtain rfl := (List.cons.inj hsplit).1
              exact .of_plain rfl
          | _ :: _ => simp at hsplit
      | i + 2 => cases hs
    · intro i source hs routine hroutine
      match i with
      | 0 | 1 =>
          obtain rfl := Option.some.inj hs
          cases hroutine
      | i + 2 => cases hs

/-- The routines of `interlinked` are linkable, and so is a branch over the most bytes. One byte
    more, a name without a routine and a branch that is none are refused each by itself, and a
    repeated name with all other faults beside it. -/
theorem link_succeeds_iff_faulty :
    Linkable interlinked ∧ (∃ linked, link (spread 0x7FFD) = .ok linked) ∧
      (¬ ∃ linked, link (spread 0x7FFE) = .ok linked) ∧
      (¬ ∃ linked, link unnamed = .ok linked) ∧ (¬ ∃ linked, link unended = .ok linked) ∧
      (¬ ∃ linked, link misbranched = .ok linked) ∧ ¬ (faulty.map Source.key).Nodup ∧
      (∃ front source back, faulty = front ++ source :: back ∧ (front.map Source.key).Nodup ∧
        source.key ∈ front.map Source.key ∧
        link faulty = .error (.duplicateRoutine source.library source.routine)) ∧
      link faulty = .error (.duplicateRoutine 1 1) := by
  have hfar : ¬ Linkable (spread 0x7FFE) := fun h => absurd (linkable_spread_iff.1 h) (by decide)
  exact ⟨(link_succeeds_iff interlinked).1.1 ⟨_, rfl⟩,
    (link_succeeds_iff (spread 0x7FFD)).1.2 (linkable_spread_iff.2 (Nat.le_refl _)),
    mt (link_succeeds_iff _).1.1 hfar,
    mt (link_succeeds_iff _).1.1 not_linkable_unnamed,
    mt (link_succeeds_iff _).1.1 not_linkable_unended,
    mt (link_succeeds_iff _).1.1 not_linkable_misbranched, by decide,
    (link_succeeds_iff faulty).2 (by decide), rfl⟩

end AmigaBinary.Routine
