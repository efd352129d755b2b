import AmigaBinary.Proofs.Routine.Linkable

/-!
# Linking more routines

What is linked stays as it is when more routines are linked behind it (`link_append`). A name that
has a place has the same place in a longer list (`targetOffset_append`), so every routine is linked
to the same code. Only the last routine could change, if it ran into the first new one instead of
branching to it: but the routine that it branches to is there already, and no name repeats
(`not_fallsInto`).
-/

namespace AmigaBinary.Routine

variable {spots more : List Placement} {own : UInt8}

/-! ## 1. More places -/

theorem targetOffset_append {library : UInt8} {routine : UInt16} {offset : Nat}
    (h : targetOffset spots library routine = .ok offset) :
    targetOffset (spots ++ more) library routine = .ok offset := by
  obtain ⟨spot, hfind, rfl⟩ := targetOffset_eq_ok h
  unfold targetOffset
  rw [List.find?_append, hfind]
  rfl

/-- What is linked to a name is the same with more places. -/
theorem target_bind_append {library : UInt8} {routine : UInt16} {g : Nat → Except Error Fragment}
    {f : Fragment} (h : (targetOffset spots library routine >>= g) = .ok f) :
    (targetOffset (spots ++ more) library routine >>= g) = .ok f := by
  obtain ⟨offset, htarget, hf⟩ := bind_eq_ok.1 h
  exact bind_eq_ok.2 ⟨offset, targetOffset_append htarget, hf⟩

theorem linkSection_append {offset : Nat} {s : Section} {f : Fragment}
    (h : linkSection spots own offset s = .ok f) :
    linkSection (spots ++ more) own offset s = .ok f := by
  cases s with
  | literal bytes | rawData => exact h
  | branch mnemonic routine => exact target_bind_append h
  | library call owner routine => exact target_bind_append h
  | register call reg routine => exact target_bind_append h
  | loadAddress reg routine => exact target_bind_append h

theorem linkSections_append {last last' : Nat → Except Error Fragment} {offset : Nat}
    {sections : List Section} {f : Fragment} (hl : ∀ n g, last n = .ok g → last' n = .ok g)
    (h : linkSections spots own last offset sections = .ok f) :
    linkSections (spots ++ more) own last' offset sections = .ok f := by
  induction sections generalizing offset f with
  | nil => exact hl offset f h
  | cons s sections ih =>
      obtain ⟨first, hfirst, h⟩ := bind_eq_ok.1 h
      obtain ⟨others, hothers, h⟩ := bind_eq_ok.1 h
      exact bind_eq_ok.2 ⟨first, linkSection_append hfirst,
        bind_eq_ok.2 ⟨others, ih hothers, h⟩⟩

theorem linkFallthrough_append {source : Source} {spot : Placement} {offset : Nat} {f : Fragment}
    (h : linkFallthrough spots source spot offset = .ok f) :
    linkFallthrough (spots ++ more) source spot offset = .ok f := by
  unfold linkFallthrough at h ⊢
  split at h
  · exact target_bind_append h
  · exact h

/-- **A routine is linked to the same code with more places.** -/
theorem linkRoutine_append {source : Source} {spot : Placement} {f : Fragment}
    (h : linkRoutine spots source spot = .ok f) :
    linkRoutine (spots ++ more) source spot = .ok f :=
  linkSections_append (fun _ _ => linkFallthrough_append) h

/-- **Routines behind others are linked behind their code**, and leave it as it is. -/
theorem linkRoutines_append {pairs others : List (Source × Placement)} {f g : Fragment}
    (h : linkRoutines spots pairs = .ok f)
    (h' : linkRoutines (spots ++ more) (pairs ++ others) = .ok g) : ∃ rest, g = f.append rest := by
  induction pairs generalizing f g with
  | nil =>
      obtain rfl := Except.ok.inj h
      exact ⟨g, rfl⟩
  | cons pair pairs ih =>
      obtain ⟨source, spot⟩ := pair
      obtain ⟨first, hfirst, h⟩ := bind_eq_ok.1 h
      obtain ⟨next, hnext, h⟩ := bind_eq_ok.1 h
      obtain ⟨first', hfirst', h'⟩ := bind_eq_ok.1 h'
      obtain ⟨next', hnext', h'⟩ := bind_eq_ok.1 h'
      obtain rfl := Except.ok.inj h
      obtain rfl := Except.ok.inj h'
      obtain rfl : first = first' :=
        Except.ok.inj ((linkRoutine_append hfirst).symm.trans hfirst')
      obtain ⟨rest, rfl⟩ := ih hnext hnext'
      exact ⟨rest, by simp only [Fragment.append, List.append_assoc]⟩

/-! ## 2. More routines -/

/-- The place of a routine only depends on the next one as far as it runs into it. -/
theorem place_congr {source : Source} {next next' : Option Source} (offset : Nat)
    (h : fallsInto source next = fallsInto source next') :
    place source next offset = place source next' offset := by
  unfold place
  rw [h]

/-- **Routines are laid out behind others**, which stay where they are if the last one of them does
    not run into the first new one. -/
theorem layoutFrom_append {sources others : List Source} {offset : Nat}
    (h : ∀ last, sources.getLast? = some last → fallsInto last others.head? = false) :
    ∃ finish, layoutFrom (sources ++ others) offset
      = layoutFrom sources offset ++ layoutFrom others finish := by
  induction sources generalizing offset with
  | nil => exact ⟨offset, rfl⟩
  | cons source sources ih =>
      cases sources with
      | nil =>
          have hplace : place source others.head? offset = place source none offset :=
            place_congr offset (h source rfl)
          refine ⟨offset + (place source none offset).length, ?_⟩
          show place source others.head? offset
            :: layoutFrom others (offset + (place source others.head? offset).length) = _
          rw [hplace]
          rfl
      | cons next sources =>
          obtain ⟨finish, hrest⟩ := @ih (offset + (place source (some next) offset).length) h
          refine ⟨finish, ?_⟩
          show place source (some next) offset :: layoutFrom (next :: sources ++ others)
            (offset + (place source (some next) offset).length) = _
          rw [hrest]
          rfl

/-- **The last routine of linked ones runs into none behind it**: what it ends by branching to is
    among them. -/
theorem not_fallsInto {sources others : List Source} {last : Source} (h : Linkable sources)
    (hn : ((sources ++ others).map Source.key).Nodup) (hlast : sources.getLast? = some last) :
    fallsInto last others.head? = false := by
  cases others with
  | nil => rfl
  | cons next others =>
      rw [Bool.eq_false_iff]
      intro hfalls
      obtain ⟨routine, hroutine⟩ : ∃ routine, last.pattern.fallthroughTarget = some routine := by
        have hboth := hfalls
        simp only [List.head?_cons, fallsInto, Bool.and_eq_true, beq_iff_eq] at hboth
        exact ⟨_, hboth.2⟩
      have hnext := Option.some.inj ((fallsInto_iff hroutine).1 hfalls)
      rw [List.getLast?_eq_getElem?] at hlast
      have hend : sources[sources.length - 1 + 1]? = none := List.getElem?_eq_none (by omega)
      obtain ⟨target, hstarts, -⟩ := h.ends _ last hlast routine hroutine
        (by rw [hend]; exact (Option.some_ne_none _).symm)
      rw [List.map_append, List.nodup_append] at hn
      exact hn.2.2 _ hstarts.mem _ List.mem_cons_self hnext.symm

/-- **Routines that are linked behind others leave these as they are**: their code, their
    relocations and their places. -/
theorem link_append {sources others : List Source} {first all : Linked}
    (h : link sources = .ok first) (h' : link (sources ++ others) = .ok all) :
    first.code <+: all.code ∧ first.relocations <+: all.relocations ∧
      first.routines <+: all.routines := by
  obtain ⟨f, hf, hcode, hrelocations, hroutines, -⟩ := link_eq_ok h
  obtain ⟨g, hg, hcode', hrelocations', hroutines', hn⟩ := link_eq_ok h'
  obtain ⟨finish, hlayout⟩ := @layoutFrom_append sources others startOffset
    fun last hlast => not_fallsInto (linkable_of_link h) hn hlast
  rw [hlayout] at hroutines'
  rw [hlayout, hroutines', List.zip_append (length_layoutFrom sources startOffset).symm] at hg
  rw [hroutines] at hf
  obtain ⟨rest, rfl⟩ := linkRoutines_append hf hg
  refine ⟨?_, ?_, ?_⟩
  · rw [hcode, hcode']
    exact ⟨rest.code, List.append_assoc ..⟩
  · rw [hrelocations, hrelocations']
    exact ⟨rest.relocations, rfl⟩
  · rw [hroutines, hroutines']
    exact List.prefix_append _ _

/-- Two routines of which each ends by branching to the other one. -/
def looped : List Source :=
  [⟨1, 1, ⟨[.branch (.branch .equal) 2, .rawData], none, some 2⟩⟩,
    ⟨1, 2, ⟨[.library true 0 1], none, some 1⟩⟩]

/-- A routine with references to both of them. -/
def visitor : List Source :=
  [⟨1, 3, ⟨[.loadAddress 0 1, .library false 1 2], none, some 2⟩⟩]

/-- The linked form of the two. The first one runs into the second one, which branches back. -/
def loopedCode : Linked where
  code :=
    [0x4E, 0x75, 0x67, 0, 0, 6, 0x4E, 0x71, 0x4E, 0x71, 0x4E, 0xB9, 0x10, 0, 0, 2, 0x60, 0,
      0xFF, 0xF0]
  relocations := [12]
  routines := [⟨1, 1, 2, 8, true⟩, ⟨1, 2, 10, 10, false⟩]

/-- The linked form of the three. -/
def visitedCode : Linked where
  code :=
    [0x4E, 0x75, 0x67, 0, 0, 6, 0x4E, 0x71, 0x4E, 0x71, 0x4E, 0xB9, 0x10, 0, 0, 2, 0x60, 0,
      0xFF, 0xF0, 0x41, 0xFA, 0xFF, 0xEC, 0x4E, 0x71, 0x4E, 0xF9, 0x10, 0, 0, 10, 0x60, 0,
      0xFF, 0xE8]
  relocations := [12, 28]
  routines := [⟨1, 1, 2, 8, true⟩, ⟨1, 2, 10, 10, false⟩, ⟨1, 3, 20, 16, false⟩]

/-- The branch at the end of the second routine stays when the third one is linked behind it. -/
theorem link_append_looped :
    link looped = .ok loopedCode ∧ link (looped ++ visitor) = .ok visitedCode ∧
      loopedCode.code <+: visitedCode.code ∧
      loopedCode.relocations <+: visitedCode.relocations ∧
      loopedCode.routines <+: visitedCode.routines := by
  have hfirst : link looped = .ok loopedCode := by decide
  have hall : link (looped ++ visitor) = .ok visitedCode := by decide
  exact ⟨hfirst, hall, link_append hfirst hall⟩

end AmigaBinary.Routine
