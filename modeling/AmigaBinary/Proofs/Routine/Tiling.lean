import AmigaBinary.Proofs.Library.CodeBlocks
import AmigaBinary.Proofs.Library.TokenTable
import AmigaBinary.Proofs.Routine.Patterns
import AmigaBinary.Proofs.Routine.References

/-!
# The layout of linked code

The places of routines lie one behind the other (`Tiles`), from the return instruction in front of
them to the end of the code, and the bytes of each routine fill its place (`Fills`): as far as the
lengths of its sections say, each section has its own bytes. `laidOut_of_link` says so of all
routines that link, and that those of libraries lie at even offsets.
-/

namespace AmigaBinary.Routine

open M68k

/-! ## 1. Places one behind the other -/

/-- Places that lie one behind the other, from `start` up to `finish`. -/
def Tiles : Nat → List Placement → Nat → Prop
  | start, [], finish => start = finish
  | start, spot :: spots, finish => spot.offset = start ∧ Tiles (start + spot.length) spots finish

/-- **Routines are laid out one behind the other.** -/
theorem tiles_layoutFrom : ∀ (sources : List Source) (offset : Nat),
    Tiles offset (layoutFrom sources offset)
      (offset + total Placement.length (layoutFrom sources offset))
  | [], _ => rfl
  | source :: rest, offset => by
      rw [layoutFrom, total_cons, ← Nat.add_assoc]
      exact ⟨rfl, tiles_layoutFrom rest _⟩

/-- Places of even lengths start at even offsets. -/
theorem Tiles.even : ∀ {spots : List Placement} {start finish : Nat}, Tiles start spots finish →
    start % 2 = 0 → (∀ spot ∈ spots, spot.length % 2 = 0) → ∀ spot ∈ spots, spot.offset % 2 = 0
  | [], _, _, _, _, _ => List.forall_mem_nil _
  | first :: spots, start, finish, ⟨hfirst, hrest⟩, hstart, heven => by
      obtain ⟨hlength, hspots⟩ := List.forall_mem_cons.1 heven
      exact List.forall_mem_cons.2 ⟨by omega, hrest.even (by omega) hspots⟩

/-- The branch at the end of a routine is left out where its target is the next routine. -/
theorem fallthrough_layoutFrom {sources : List Source} {offset i : Nat} {source : Source}
    {spot : Placement} (hs : sources[i]? = some source)
    (hp : (layoutFrom sources offset)[i]? = some spot) :
    spot.fallthrough = fallsInto source sources[i + 1]? := by
  induction sources generalizing offset i with
  | nil => cases hs
  | cons first sources ih =>
      rw [layoutFrom] at hp
      cases i with
      | zero =>
          obtain rfl := Option.some.inj hs
          obtain rfl := Option.some.inj hp
          rw [List.getElem?_cons_succ, ← List.head?_eq_getElem?]
          rfl
      | succ i => exact ih hs hp

variable {placements : List Placement}

/-- Routines are linked to as many bytes as their places say. -/
theorem length_of_linkRoutines {sources : List Source} {offset : Nat} {f : Fragment}
    (h : linkRoutines placements (sources.zip (layoutFrom sources offset)) = .ok f) :
    f.code.length = total Placement.length (layoutFrom sources offset) := by
  induction sources generalizing offset f with
  | nil =>
      obtain rfl := Except.ok.inj h
      rfl
  | cons source sources ih =>
      obtain ⟨first, hfirst, h⟩ := bind_eq_ok.1 h
      obtain ⟨others, hothers, h⟩ := bind_eq_ok.1 h
      obtain rfl := Except.ok.inj h
      show (first.code ++ others.code).length = _
      rw [List.length_append, length_of_linkRoutine hfirst, ih hothers]
      rfl

/-! ## 2. Routines in their places -/

/-- The bytes of a routine fill its place. -/
structure Fills (linked : Linked) (source : Source) (spot : Placement) : Prop where
  length : spot.length
    = if spot.fallthrough then source.pattern.bodyLength else source.pattern.length
  whole : ∃ g, linkRoutine linked.routines source spot = .ok g ∧ g.code.length = spot.length ∧
    Lies g.code spot.offset linked.code
  /-- What a section is linked to lies behind the sections in front of it. -/
  parts : ∀ front s back, source.pattern.sections = front ++ s :: back →
    ∃ g, linkSection linked.routines source.library (spot.offset + total Section.length front) s
        = .ok g ∧ g.code.length = s.length ∧
      Lies g.code (spot.offset + total Section.length front) linked.code
  literals : ∀ front bytes back, source.pattern.sections = front ++ .literal bytes :: back →
    Lies bytes (spot.offset + total Section.length front) linked.code
  /-- The branch at the end takes what the sections leave of the place. -/
  ending : ∃ g, linkFallthrough linked.routines source spot
        (spot.offset + source.pattern.bodyLength) = .ok g ∧
      source.pattern.bodyLength + g.code.length = spot.length ∧
      Lies g.code (spot.offset + source.pattern.bodyLength) linked.code

theorem length_eq_of_tailLength {source : Source} {spot : Placement}
    (h : spot.length = source.pattern.bodyLength + spot.tailLength source.pattern) :
    spot.length
      = if spot.fallthrough then source.pattern.bodyLength else source.pattern.length := by
  rw [h]
  unfold Placement.tailLength Pattern.length
  cases spot.fallthrough <;> rfl

/-- **The bytes of every routine that is linked fill its place.** -/
theorem fills_of_link {sources : List Source} {linked : Linked} (h : link sources = .ok linked)
    {source : Source} {spot : Placement} (hm : (source, spot) ∈ sources.zip linked.routines) :
    Fills linked source spot := by
  obtain ⟨-, -, -, -, hp, -⟩ := link_eq_ok h
  obtain ⟨g, hg, hlies⟩ := lies_of_link h hm
  have hlength : spot.length = _ := length_of_mem_layoutFrom (hp ▸ hm)
  have hparts : ∀ front s back, source.pattern.sections = front ++ s :: back →
      ∃ f, linkSection linked.routines source.library (spot.offset + total Section.length front) s
          = .ok f ∧ f.code.length = s.length ∧
        Lies f.code (spot.offset + total Section.length front) linked.code := by
    intro front s back hs
    have hsections := hg
    rw [linkRoutine, hs] at hsections
    obtain ⟨f, hf, hin⟩ := lies_linkSection hsections
    exact ⟨f, hf, length_of_linkSection hf, hin.trans hlies⟩
  constructor
  case length => exact length_eq_of_tailLength hlength
  case whole =>
    refine ⟨g, hg, ?_, hlies⟩
    rw [hlength]
    exact length_of_linkSections (fun _ _ => length_of_linkFallthrough) hg
  case parts => exact hparts
  case literals =>
    intro front bytes back hs
    obtain ⟨f, hf, -, hin⟩ := hparts front _ back hs
    obtain rfl := Except.ok.inj hf
    exact hin
  case ending =>
    obtain ⟨f, hf, hin⟩ := lies_last hg
    refine ⟨f, hf, ?_, hin.trans hlies⟩
    rw [length_of_linkFallthrough hf]
    exact hlength.symm

/-! ## 3. Linked code -/

/-- The pattern of a routine is that of a code block of a library. -/
def Source.FromLibrary (source : Source) : Prop :=
  ∃ data library block, Library.parse data = .ok library ∧ block ∈ library.codeBlocks ∧
    source.pattern = .ofCode block

/-- What it is for linked code to be laid out. -/
structure LaidOut (sources : List Source) (linked : Linked) : Prop where
  keys : linked.routines.map Placement.key = sources.map Source.key
  distinct : (linked.routines.map Placement.key).Nodup
  starts : Lies (Bytes.ofWord16 rts) 0 linked.code
  tiles : Tiles 2 linked.routines linked.code.length
  /-- A branch is left out exactly where its target is the next routine. -/
  fallthrough : ∀ i source spot, sources[i]? = some source → linked.routines[i]? = some spot →
    spot.fallthrough = fallsInto source sources[i + 1]?
  fills : ∀ source spot, (source, spot) ∈ sources.zip linked.routines → Fills linked source spot
  even : (∀ source ∈ sources, source.FromLibrary) →
    ∀ spot ∈ linked.routines, spot.offset % 2 = 0

/-- Routines of libraries have even lengths, with and without the branch at their end. -/
theorem Source.FromLibrary.even {source : Source} (h : source.FromLibrary) :
    source.pattern.length % 2 = 0 ∧ source.pattern.bodyLength % 2 = 0 := by
  obtain ⟨data, library, block, hparse, hblock, hpattern⟩ := h
  rw [hpattern]
  exact Pattern.even_ofCode (Library.even_of_mem_codeBlocks hparse hblock)

/-- **Linked code is laid out as planned**: the routines lie one behind the other, in their order,
    from behind the return instruction to the end of the code; each fills its place with the bytes
    of its sections; and those of libraries start at even offsets. -/
theorem laidOut_of_link {sources : List Source} {linked : Linked}
    (h : link sources = .ok linked) : LaidOut sources linked := by
  obtain ⟨f, hf, hcode, -, hp, hnodup⟩ := link_eq_ok h
  have hkeys : linked.routines.map Placement.key = sources.map Source.key := by
    rw [hp, layoutFrom_keys]
  have hlength : linked.code.length
      = startOffset + total Placement.length (layoutFrom sources startOffset) := by
    rw [hcode, List.length_append, Bytes.length_ofWord16, length_of_linkRoutines hf]
    rfl
  have htiles : Tiles 2 linked.routines linked.code.length := by
    rw [hlength, hp]
    exact tiles_layoutFrom sources startOffset
  constructor
  case keys => exact hkeys
  case distinct =>
    rw [hkeys]
    exact hnodup
  case starts =>
    rw [hcode]
    exact (Lies.refl _).append_right f.code
  case tiles => exact htiles
  case fallthrough =>
    intro i source spot hs hspot
    rw [hp] at hspot
    exact fallthrough_layoutFrom hs hspot
  case fills => exact fun source spot hm => fills_of_link h hm
  case even =>
    intro hsources
    refine htiles.even rfl fun spot hm => ?_
    obtain ⟨source, hzip⟩ := exists_source_of_link h hm
    obtain ⟨hwhole, hbody⟩ := (hsources source (List.of_mem_zip hzip).1).even
    rw [(fills_of_link h hzip).length]
    split
    · exact hbody
    · exact hwhole

/-- Two code blocks of a library: the first one ends by branching to the second one, which calls it
    twice and has the ending of a routine that returns a type. -/
def pairedBlocks : List Bytes :=
  [[0x4E, 0x71, 0xF2, 0xF1, 0, 1],
    [0xF3, 0xF1, 0, 0, 0xF1, 0xF1, 0, 0, 0, 0, 0x74, 1, 0x4E, 0x75]]

/-- The library of these blocks, without keywords and titles. -/
def pairedLibrary : Bytes :=
  [0, 0, 0, 4, 0, 0, 0, 2, 0, 0, 0, 20, 0, 0, 0, 0, 0, 0, 0, 3, 0, 7, 0, 0] ++ pairedBlocks.flatten

def pairedSources : List Source :=
  [⟨0, 0, .ofCode [0x4E, 0x71, 0xF2, 0xF1, 0, 1]⟩,
    ⟨0, 1, .ofCode [0xF3, 0xF1, 0, 0, 0xF1, 0xF1, 0, 0, 0, 0, 0x74, 1, 0x4E, 0x75]⟩]

theorem parse_pairedLibrary :
    Library.parse pairedLibrary = .ok ⟨false, false, pairedBlocks, [], []⟩ := by
  have htokens : TokenTable.read pairedLibrary 22 24 = .ok [] := by
    unfold TokenTable.read
    exact TokenTable.readFrom_none rfl
  unfold Library.parse
  rw [if_neg (by decide)]
  exact bind_eq_ok.2 ⟨0, rfl, bind_eq_ok.2 ⟨⟨18, 22, 24, 44, 44⟩, rfl,
    bind_eq_ok.2 ⟨pairedBlocks, rfl, bind_eq_ok.2 ⟨_, htokens, rfl⟩⟩⟩⟩

theorem link_pairedSources : link pairedSources = .ok {
    code := [0x4E, 0x75, 0x4E, 0x71, 0x61, 0, 0xFF, 0xFC, 0x4E, 0xB9, 0x10, 0, 0, 2, 0x4E, 0x75]
    relocations := [10]
    routines := [⟨0, 0, 2, 2, true⟩, ⟨0, 1, 4, 12, false⟩]
  } := by
  have hfirst : Scanned ([0x4E, 0x71] ++ ([0xF2, 0xF1, 0, 1] ++ []))
      [.literal [0x4E, 0x71], .branch (.branch .always) 1] :=
    .between (by decide) rfl (by unfold Unescaped; decide) (by unfold Section.IsEscape; decide)
      (.escape (by unfold Section.IsEscape; decide) (by decide) rfl .empty)
  have hsecond : Scanned ([0xF3, 0xF1, 0, 0] ++ ([0xF1, 0xF1, 0, 0, 0, 0] ++ [0x4E, 0x75]))
      [.branch (.branch .never) 0, .library true 0 0, .literal [0x4E, 0x75]] :=
    .escape (by unfold Section.IsEscape; decide) (by decide) rfl
      (.escape trivial (by decide) rfl (.plain (by decide) (by unfold Unescaped; decide)))
  have hp : Pattern.ofCode [0x4E, 0x71, 0xF2, 0xF1, 0, 1]
      = ⟨[.literal [0x4E, 0x71]], none, some 1⟩ := congrArg Pattern.ofSections hfirst.scan_eq
  have hq : Pattern.ofCode [0xF3, 0xF1, 0, 0, 0xF1, 0xF1, 0, 0, 0, 0, 0x74, 1, 0x4E, 0x75]
      = ⟨[.branch (.branch .never) 0, .library true 0 0, .literal [0x4E, 0x75]], none, none⟩ :=
    congrArg Pattern.ofSections hsecond.scan_eq
  rw [pairedSources, hp, hq]
  rfl

/-- The branch of the first routine is left out, and the second one is two bytes shorter than its
    code block. -/
theorem laidOut_of_link_paired :
    ∃ linked, link pairedSources = .ok linked ∧ LaidOut pairedSources linked ∧
      (∀ source ∈ pairedSources, source.FromLibrary) ∧
      (∀ spot ∈ linked.routines, spot.offset % 2 = 0) ∧
      linked.routines = [⟨0, 0, 2, 2, true⟩, ⟨0, 1, 4, 12, false⟩] := by
  have hsources : ∀ source ∈ pairedSources, source.FromLibrary := by
    unfold pairedSources
    refine List.forall_mem_cons.2 ⟨?_, List.forall_mem_singleton.2 ?_⟩
    · exact ⟨_, _, _, parse_pairedLibrary, List.mem_cons_self, rfl⟩
    · exact ⟨_, _, _, parse_pairedLibrary, List.mem_cons_of_mem _ List.mem_cons_self, rfl⟩
  have hlaid := laidOut_of_link link_pairedSources
  exact ⟨_, link_pairedSources, hlaid, hsources, hlaid.even hsources, rfl⟩

end AmigaBinary.Routine
