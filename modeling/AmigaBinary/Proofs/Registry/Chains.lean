import AmigaBinary.Registry.Basic
import AmigaBinary.Proofs.Success
import Mathlib.Data.List.Chain
import Mathlib.Data.List.Infix
import Mathlib.Data.List.Nodup

/-!
# Chains of bases

A trail is a row of definitions, each the base of the next (`Trail`), and a lineage is a trail that
starts at a definition without a base (`Lineage`). The chain of a definition is found in rounds:
each looks up one base and compares it with all definitions that were passed (`walk`). On every
list, also on one with cycles, the search is over after at most one round more than there are
definitions (`walk_eq_chain`).

A list is grounded if its digests differ, all bases are in it, and no trail comes back to a digest
(`Grounded`). Exactly then every definition has a chain (`grounded_iff`), and the chain is its only
lineage (`chain_eq_ok`).
-/

namespace AmigaBinary.LibraryDefinition

variable {all unvisited links : List LibraryDefinition}
variable {definition earlier top current : LibraryDefinition}

/-! ## 1. Trails -/

/-- A definition extends an earlier one. -/
def IsBase (earlier definition : LibraryDefinition) : Prop :=
  definition.base = some earlier.md5

/-- Definitions out of a list, each of them the base of the next and `definition` the last. -/
structure Trail (all : List LibraryDefinition) (definition : LibraryDefinition)
    (links : List LibraryDefinition) : Prop where
  last : links.getLast? = some definition
  linked : links.IsChain IsBase
  members : ∀ link ∈ links, link ∈ all

/-- A trail from a definition that extends nothing. -/
structure Lineage (all : List LibraryDefinition) (definition : LibraryDefinition)
    (links : List LibraryDefinition) : Prop extends Trail all definition links where
  root : ∀ first ∈ links.head?, first.base = none

/-- Definitions whose chains all end. -/
structure Grounded (all : List LibraryDefinition) : Prop where
  /-- No two definitions have the same digest. -/
  distinct : (all.map (·.md5)).Nodup
  /-- Each base is one of the definitions. -/
  known : ∀ definition ∈ all, ∀ md5, definition.base = some md5 →
    ∃ earlier ∈ all, earlier.md5 = md5
  /-- No way along the bases comes back to a digest. -/
  acyclic : ∀ definition links, Trail all definition links → (links.map (·.md5)).Nodup

theorem Trail.mem (h : Trail all definition links) : definition ∈ all :=
  h.members _ (List.mem_of_getLast? h.last)

theorem Trail.exists_front (h : Trail all definition links) :
    ∃ front, links = front ++ [definition] :=
  List.getLast?_eq_some_iff.1 h.last

theorem Trail.single (h : definition ∈ all) : Trail all definition [definition] :=
  ⟨rfl, List.isChain_singleton _, by simpa using h⟩

/-- A trail with the base of its first definition in front. -/
theorem Trail.cons (h : Trail all definition (current :: links)) (hmem : earlier ∈ all)
    (hbase : IsBase earlier current) : Trail all definition (earlier :: current :: links) where
  last := by rw [List.getLast?_cons_cons]; exact h.last
  linked := List.isChain_cons_cons.2 ⟨hbase, h.linked⟩
  members := List.forall_mem_cons.2 ⟨hmem, h.members⟩

/-- The lineage of a definition is that of its base and the definition. -/
theorem Lineage.concat (h : Lineage all earlier links) (hmem : definition ∈ all)
    (hbase : IsBase earlier definition) : Lineage all definition (links ++ [definition]) where
  last := List.getLast?_concat
  linked := by
    refine List.isChain_append.2 ⟨h.linked, List.isChain_singleton _, ?_⟩
    intro last hlast first hfirst
    obtain rfl := Option.some.inj (h.last.symm.trans hlast)
    obtain rfl := Option.some.inj hfirst
    exact hbase
  members := by
    intro link hlink
    rcases List.mem_append.1 hlink with hlink | hlink
    · exact h.members link hlink
    · exact List.mem_singleton.1 hlink ▸ hmem
  root := by
    intro first hfirst
    have hne : links ≠ [] := by
      intro hnil
      rw [hnil] at h
      cases h.last
    rw [List.head?_append_of_ne_nil _ hne] at hfirst
    exact h.root first hfirst

theorem lineage_single (hmem : definition ∈ all) (hbase : definition.base = none) :
    Lineage all definition [definition] where
  toTrail := .single hmem
  root := by
    intro first hfirst
    rw [← Option.some.inj hfirst]
    exact hbase

/-! ## 2. Definitions by their digests -/

theorem eq_of_md5 (hdistinct : (all.map (·.md5)).Nodup) (hmem : definition ∈ all)
    (hearlier : earlier ∈ all) (hmd5 : definition.md5 = earlier.md5) : definition = earlier :=
  List.inj_on_of_nodup_map hdistinct hmem hearlier hmd5

theorem mem_of_find? {md5 : String} (h : find? md5 all = some definition) :
    definition ∈ all ∧ definition.md5 = md5 :=
  ⟨List.mem_of_find?_eq_some h, by simpa using List.find?_some h⟩

theorem exists_find? {md5 : String} (h : ∃ definition ∈ all, definition.md5 = md5) :
    ∃ definition, find? md5 all = some definition := by
  obtain ⟨definition, hmem, hmd5⟩ := h
  rw [← Option.isSome_iff_exists, find?, List.find?_isSome]
  exact ⟨definition, hmem, by simpa using hmd5⟩

theorem find?_without (md5 other : String) : find? md5 (without other all) =
    if md5 = other then none else find? md5 all := by
  rw [find?, without, List.find?_filter]
  split
  · rename_i heq
    subst heq
    simp
  · rename_i hne
    rw [find?]
    congr 1
    funext definition
    by_cases hmd5 : definition.md5 = md5
    · simp [hmd5, hne]
    · simp [hmd5]

/-! ## 3. The search in rounds -/

theorem basesFrom_root (h : current.base = none) :
    basesFrom all top unvisited current = .ok [] := by
  rw [basesFrom]
  simp only [h]

theorem basesFrom_found {md5 : String} (hbase : current.base = some md5)
    (h : find? md5 unvisited = some earlier) : basesFrom all top unvisited current =
      (basesFrom all top (without md5 unvisited) earlier).map (earlier :: ·) := by
  rw [basesFrom]
  simp only [hbase]
  split
  · rename_i next hnext
    obtain rfl := Option.some.inj (h.symm.trans hnext)
    cases basesFrom all top (without md5 unvisited) earlier with
    | error fault => rfl
    | ok bases => rfl
  · rename_i hnone
    rw [hnone] at h
    cases h

theorem basesFrom_missing {md5 : String} (hbase : current.base = some md5)
    (h : find? md5 unvisited = none) : basesFrom all top unvisited current =
      if (find? md5 all).isSome then .error (.cyclicChain top.name top.version)
      else .error (.unknownBase top.name top.version md5) := by
  rw [basesFrom]
  simp only [hbase]
  split
  · rename_i next hnext
    rw [hnext] at h
    cases h
  · rfl

/-- The chain that ends in `current :: passed`, searched for in a number of rounds, each of which
    looks up one base; `none` if the search is not over then. -/
def walk (all : List LibraryDefinition) (top : LibraryDefinition) :
    Nat → LibraryDefinition → List LibraryDefinition →
      Option (Except RegistryFault (List LibraryDefinition))
  | 0, _, _ => none
  | rounds + 1, current, passed =>
    match current.base with
    | none => some (.ok (current :: passed))
    | some md5 =>
      match find? md5 all with
      | none => some (.error (.unknownBase top.name top.version md5))
      | some next =>
        if next.md5 ∈ (current :: passed).map (·.md5) then
          some (.error (.cyclicChain top.name top.version))
        else walk all top rounds next (current :: passed)

/-- What a round does: the search ends at a definition without a base, fails at a base that is not
    there or was passed, or goes on with the base. -/
theorem walk_cases (all : List LibraryDefinition) (top : LibraryDefinition) (rounds : Nat)
    (current : LibraryDefinition) (passed : List LibraryDefinition) :
    (current.base = none ∧ walk all top (rounds + 1) current passed =
        some (.ok (current :: passed))) ∨
      (∃ md5, current.base = some md5 ∧ find? md5 all = none ∧
        walk all top (rounds + 1) current passed =
          some (.error (.unknownBase top.name top.version md5))) ∨
      ∃ next, IsBase next current ∧ find? next.md5 all = some next ∧
        ((next.md5 ∈ (current :: passed).map (·.md5) ∧
            walk all top (rounds + 1) current passed =
              some (.error (.cyclicChain top.name top.version))) ∨
          (next.md5 ∉ (current :: passed).map (·.md5) ∧
            walk all top (rounds + 1) current passed =
              walk all top rounds next (current :: passed))) := by
  cases hbase : current.base with
  | none =>
      refine Or.inl ⟨rfl, ?_⟩
      simp only [walk, hbase]
  | some md5 =>
      cases hfind : find? md5 all with
      | none =>
          refine Or.inr (Or.inl ⟨md5, rfl, hfind, ?_⟩)
          simp only [walk, hbase, hfind]
      | some next =>
          obtain ⟨-, rfl⟩ := mem_of_find? hfind
          refine Or.inr (Or.inr ⟨next, hbase, hfind, ?_⟩)
          by_cases hpassed : next.md5 ∈ (current :: passed).map (·.md5)
          · refine Or.inl ⟨hpassed, ?_⟩
            simp only [walk, hbase, hfind]
            exact if_pos hpassed
          · refine Or.inr ⟨hpassed, ?_⟩
            simp only [walk, hbase, hfind]
            exact if_neg hpassed

/-- The rounds are enough as long as there are more of them than definitions not passed. -/
theorem walk_eq_basesFrom {passed : List LibraryDefinition} {rounds : Nat}
    (hunvisited : ∀ md5, find? md5 unvisited =
      if md5 ∈ (current :: passed).map (·.md5) then none else find? md5 all)
    (hlt : unvisited.length < rounds) : walk all top rounds current passed =
      some ((basesFrom all top unvisited current).map fun bases =>
        bases.reverse ++ current :: passed) := by
  induction rounds generalizing unvisited current passed with
  | zero => exact absurd hlt (Nat.not_lt_zero _)
  | succ rounds ih =>
      rcases walk_cases all top rounds current passed with
        ⟨hbase, hwalk⟩ | ⟨md5, hbase, hnone, hwalk⟩ | ⟨next, hbase, hnext, hround⟩
      · rw [hwalk, basesFrom_root hbase]
        rfl
      · have hfind := hunvisited md5
        rw [hnone, ite_self] at hfind
        rw [hwalk, basesFrom_missing hbase hfind, hnone]
        rfl
      have hfind := hunvisited next.md5
      rcases hround with ⟨hpassed, hwalk⟩ | ⟨hnew, hwalk⟩
      · rw [if_pos hpassed] at hfind
        rw [hwalk, basesFrom_missing hbase hfind, hnext]
        rfl
      · rw [if_neg hnew, hnext] at hfind
        have hshorter : (without next.md5 unvisited).length < rounds := by
          have := length_without hfind
          omega
        have hrest : ∀ md5, find? md5 (without next.md5 unvisited) =
            if md5 ∈ (next :: current :: passed).map (·.md5) then none else find? md5 all := by
          intro md5
          rw [find?_without, hunvisited, List.map_cons]
          by_cases hmd5 : md5 = next.md5 <;> simp [hmd5]
        rw [hwalk, basesFrom_found hbase hfind, ih hrest hshorter]
        cases basesFrom all top (without next.md5 unvisited) next with
        | error fault => rfl
        | ok bases => simp [Except.map]

/-- **The search for a chain is over after a round for each definition and one more**, on every
    list. -/
theorem walk_eq_chain (definition : LibraryDefinition) {rounds : Nat} (h : all.length < rounds) :
    walk all definition rounds definition [] = some (definition.chain all) := by
  have hle : (without definition.md5 all).length ≤ all.length := List.length_filter_le _ _
  have hunvisited : ∀ md5, find? md5 (without definition.md5 all) =
      if md5 ∈ ([definition].map (·.md5)) then none else find? md5 all := by
    intro md5
    simp only [find?_without, List.map_singleton, List.mem_singleton]
  rw [walk_eq_basesFrom hunvisited (by omega), chain]
  simp only [List.reverse_cons]

/-! ## 4. Chains and lineages -/

/-- A chain that is found is a lineage without repetition. -/
theorem lineage_of_walk {passed : List LibraryDefinition} {rounds : Nat}
    (h : walk all top rounds current passed = some (.ok links))
    (htrail : Trail all definition (current :: passed))
    (hnodup : ((current :: passed).map (·.md5)).Nodup) :
    Lineage all definition links ∧ (links.map (·.md5)).Nodup := by
  induction rounds generalizing current passed with
  | zero => cases h
  | succ rounds ih =>
      rcases walk_cases all top rounds current passed with
        ⟨hbase, hwalk⟩ | ⟨md5, -, -, hwalk⟩ | ⟨next, hbase, hnext, ⟨-, hwalk⟩ | ⟨hnew, hwalk⟩⟩
      · obtain rfl : current :: passed = links := by
          rw [hwalk] at h
          exact Except.ok.inj (Option.some.inj h)
        refine ⟨⟨htrail, ?_⟩, hnodup⟩
        intro first hfirst
        obtain rfl := Option.some.inj hfirst
        exact hbase
      · rw [hwalk] at h
        cases h
      · rw [hwalk] at h
        cases h
      · rw [hwalk] at h
        have hmem := (mem_of_find? hnext).1
        exact ih h (htrail.cons hmem hbase) (List.nodup_cons.2 ⟨hnew, hnodup⟩)

/-- Where definitions are grounded, the search does not fail. -/
theorem ok_of_walk {passed : List LibraryDefinition} {rounds : Nat}
    {result : Except RegistryFault (List LibraryDefinition)} (hall : Grounded all)
    (h : walk all top rounds current passed = some result)
    (htrail : Trail all definition (current :: passed)) : ∃ links, result = .ok links := by
  induction rounds generalizing current passed with
  | zero => cases h
  | succ rounds ih =>
      rcases walk_cases all top rounds current passed with
        ⟨-, hwalk⟩ | ⟨md5, hbase, hnone, -⟩ | ⟨next, hbase, hnext, hround⟩
      · rw [hwalk] at h
        exact ⟨_, (Option.some.inj h).symm⟩
      · have hcurrent : current ∈ all := htrail.members _ List.mem_cons_self
        obtain ⟨next, hnext⟩ := exists_find? (hall.known _ hcurrent _ hbase)
        rw [hnone] at hnext
        cases hnext
      · have hlonger := htrail.cons (mem_of_find? hnext).1 hbase
        have hnew := (List.nodup_cons.1 (hall.acyclic _ _ hlonger)).1
        rcases hround with ⟨hpassed, -⟩ | ⟨-, hwalk⟩
        · exact absurd hpassed hnew
        · rw [hwalk] at h
          exact ih h hlonger

theorem lineage_of_chain (hmem : definition ∈ all) (h : definition.chain all = .ok links) :
    Lineage all definition links ∧ (links.map (·.md5)).Nodup := by
  have hwalk := walk_eq_chain definition (Nat.lt_succ_self all.length)
  rw [h] at hwalk
  exact lineage_of_walk hwalk (.single hmem) (List.nodup_singleton _)

theorem exists_chain (hall : Grounded all) (hmem : definition ∈ all) :
    ∃ links, definition.chain all = .ok links :=
  ok_of_walk hall (walk_eq_chain definition (Nat.lt_succ_self all.length)) (.single hmem)

/-- Two ways along the bases agree as far as the shorter one goes. -/
theorem isPrefix_of_linked {more : List LibraryDefinition} (hdistinct : (all.map (·.md5)).Nodup)
    (hlinks : (definition :: links).IsChain (fun a b => IsBase b a))
    (hmore : (definition :: more).IsChain (fun a b => IsBase b a))
    (hmem : ∀ link ∈ links, link ∈ all) (hmemMore : ∀ link ∈ more, link ∈ all)
    (hroot : ∀ last ∈ (definition :: more).getLast?, last.base = none) : links <+: more := by
  induction links generalizing definition more with
  | nil => exact List.nil_prefix
  | cons next links ih =>
      obtain ⟨hnext, hlinks⟩ := List.isChain_cons_cons.1 hlinks
      obtain ⟨hnextMem, hmem⟩ := List.forall_mem_cons.1 hmem
      cases more with
      | nil =>
          have hnone : definition.base = none := hroot _ rfl
          rw [IsBase, hnone] at hnext
          cases hnext
      | cons other more =>
          obtain ⟨hother, hmore⟩ := List.isChain_cons_cons.1 hmore
          obtain ⟨hotherMem, hrest⟩ := List.forall_mem_cons.1 hmemMore
          have hmd5 : next.md5 = other.md5 := Option.some.inj (hnext.symm.trans hother)
          obtain rfl := eq_of_md5 hdistinct hnextMem hotherMem hmd5
          rw [List.getLast?_cons_cons] at hroot
          exact List.cons_prefix_cons.2 ⟨rfl, ih hlinks hmore hmem hrest hroot⟩

/-- Every trail of a definition is the end of its lineage. -/
theorem Trail.isSuffix {whole : List LibraryDefinition} (hdistinct : (all.map (·.md5)).Nodup)
    (h : Trail all definition links) (hwhole : Lineage all definition whole) :
    links <:+ whole := by
  obtain ⟨front, rfl⟩ := h.exists_front
  obtain ⟨start, rfl⟩ := hwhole.exists_front
  have hlinked := List.isChain_reverse.2 h.linked
  have hwholeLinked := List.isChain_reverse.2 hwhole.linked
  rw [List.reverse_concat] at hlinked hwholeLinked
  have hprefix : front.reverse <+: start.reverse := by
    refine isPrefix_of_linked hdistinct hlinked hwholeLinked ?_ ?_ ?_
    · intro link hlink
      exact h.members link (List.mem_append_left _ (List.mem_reverse.1 hlink))
    · intro link hlink
      exact hwhole.members link (List.mem_append_left _ (List.mem_reverse.1 hlink))
    · intro first hfirst
      rw [← List.reverse_concat, List.getLast?_reverse] at hfirst
      exact hwhole.root first hfirst
  obtain ⟨rest, hrest⟩ := List.reverse_prefix.1 hprefix
  exact ⟨rest, by rw [← hrest, List.append_assoc]⟩

/-- A definition has no second lineage. -/
theorem Lineage.unique {whole : List LibraryDefinition} (hdistinct : (all.map (·.md5)).Nodup)
    (h : Lineage all definition links) (hwhole : Lineage all definition whole) : links = whole := by
  have hsuffix := h.toTrail.isSuffix hdistinct hwhole
  have hsuffix' := hwhole.toTrail.isSuffix hdistinct h
  exact hsuffix.sublist.antisymm hsuffix'.sublist

/-- **The chain of a definition is its lineage.** -/
theorem chain_eq_ok (hall : Grounded all) (hmem : definition ∈ all) :
    definition.chain all = .ok links ↔ Lineage all definition links := by
  constructor
  · intro h
    exact (lineage_of_chain hmem h).1
  · intro h
    obtain ⟨found, hfound⟩ := exists_chain hall hmem
    rw [hfound, h.unique hall.distinct (lineage_of_chain hmem hfound).1]

/-- The base of a definition that has a lineage is one of the definitions. -/
theorem Lineage.exists_base {md5 : String} (h : Lineage all definition links)
    (hbase : definition.base = some md5) : ∃ earlier ∈ all, earlier.md5 = md5 := by
  obtain ⟨front, rfl⟩ := h.exists_front
  rcases List.eq_nil_or_concat front with rfl | ⟨front, earlier, rfl⟩
  · rw [h.root definition rfl] at hbase
    cases hbase
  · have hlink : IsBase earlier definition :=
      (List.isChain_append.1 h.linked).2.2 earlier (by simp) definition rfl
    refine ⟨earlier, h.members earlier (by simp), ?_⟩
    exact Option.some.inj (hlink.symm.trans hbase)

/-- **Definitions with different digests are grounded exactly if each of them has a chain.** -/
theorem grounded_iff : Grounded all ↔ (all.map (·.md5)).Nodup ∧
    ∀ definition ∈ all, ∃ links, definition.chain all = .ok links := by
  constructor
  · intro hall
    exact ⟨hall.distinct, fun definition hmem => exists_chain hall hmem⟩
  · intro ⟨hdistinct, hchains⟩
    refine ⟨hdistinct, ?_, ?_⟩
    · intro definition hmem md5 hbase
      obtain ⟨links, hlinks⟩ := hchains definition hmem
      exact (lineage_of_chain hmem hlinks).1.exists_base hbase
    · intro definition links htrail
      obtain ⟨whole, hwhole⟩ := hchains definition htrail.mem
      obtain ⟨hlineage, hnodup⟩ := lineage_of_chain htrail.mem hwhole
      exact hnodup.sublist ((htrail.isSuffix hdistinct hlineage).sublist.map _)

end AmigaBinary.LibraryDefinition
