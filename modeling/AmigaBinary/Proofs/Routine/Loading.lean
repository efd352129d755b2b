import AmigaBinary.Proofs.Hunk.RoundTrip
import AmigaBinary.Proofs.Routine.References

/-!
# Linked code as it is loaded

Linked code holds absolute addresses with a tag, and says where. `Relocated` follows these places
through the code, from fragments (`addresses_linkSection`) to linked routines
(`addresses_linkRoutines`): they ascend, they do not overlap, and at each of them stands the tagged
offset of the routine that some section names. So clearing the tags changes nothing else
(`Relocated.clearTags_eq`), and the hunk file of linked routines is read as it was written
(`link_loadable`).
-/

namespace AmigaBinary.Routine

/-! ## 1. Fields that hold addresses -/

/-- A longword for the address of a routine. -/
structure AddressField where
  place : Nat
  library : UInt8
  routine : UInt16
  deriving DecidableEq, Repr

/-- The fields for addresses in the sections of a routine of library `own`, from an offset on. Only
    jumps to absolute addresses have one, behind their opcode. -/
def addressFields (own : UInt8) : Nat → List Section → List AddressField
  | _, [] => []
  | offset, .library call library routine :: sections =>
      ⟨offset + 2, if library = 0 then own else library, routine⟩
        :: addressFields own (offset + (Section.library call library routine).length) sections
  | offset, s :: sections => addressFields own (offset + s.length) sections

/-- The fields for addresses in routines at their places. -/
def placedFields (pairs : List (Source × Placement)) : List AddressField :=
  pairs.flatMap fun (source, spot) =>
    addressFields source.library spot.offset source.pattern.sections

variable {placements : List Placement} {position : Nat} {code code' loaded loaded' : Bytes}
  {fields fields' : List AddressField}

/-- Code from a position on, its fields with tagged addresses, and the same code with addresses
    that have no tag. -/
inductive Relocated (placements : List Placement) :
    Nat → Bytes → List AddressField → Bytes → Prop where
  | plain (position : Nat) (code : Bytes) : Relocated placements position code [] code
  | field {position target : Nat} {front code loaded : Bytes} {field : AddressField}
      {fields : List AddressField} (hplace : field.place = position + front.length)
      (htarget : targetOffset placements field.library field.routine = .ok target)
      (h : Relocated placements (field.place + 4) code fields loaded) :
      Relocated placements position
        (front ++ (Bytes.ofWord32 (addressTag ||| UInt32.ofNat target) ++ code)) (field :: fields)
        (front ++ (Bytes.ofWord32 (UInt32.ofNat target) ++ loaded))

namespace Relocated

theorem behind {front : Bytes}
    (h : Relocated placements (position + front.length) code fields loaded) :
    Relocated placements position (front ++ code) fields (front ++ loaded) := by
  cases h with
  | plain => exact .plain position _
  | field hplace htarget h =>
      rw [← List.append_assoc, ← List.append_assoc front]
      refine .field ?_ htarget h
      rw [hplace, List.length_append, Nat.add_assoc]

/-- Code with fields is put in front of more. -/
theorem append (h : Relocated placements position code fields loaded)
    (h' : Relocated placements (position + code.length) code' fields' loaded') :
    Relocated placements position (code ++ code') (fields ++ fields') (loaded ++ loaded') := by
  induction h with
  | plain position code => exact h'.behind
  | @field position target front code loaded field fields hplace htarget h ih =>
      rw [List.append_assoc, List.append_assoc, List.append_assoc, List.append_assoc]
      refine .field hplace htarget (ih ?_)
      rw [List.length_append, List.length_append, Bytes.length_ofWord32] at h'
      have hposition : position + (front.length + (4 + code.length))
          = field.place + 4 + code.length := by omega
      rwa [hposition] at h'

theorem length_eq (h : Relocated placements position code fields loaded) :
    loaded.length = code.length := by
  induction h with
  | plain => rfl
  | field _ _ _ ih => simp [ih]

/-- **All fields lie inside of the code.** -/
theorem inside (h : Relocated placements position code fields loaded) :
    ∀ field ∈ fields, position ≤ field.place ∧ field.place + 4 ≤ position + code.length := by
  induction h with
  | plain => simp
  | @field position target front code loaded field fields hplace htarget h ih =>
      intro f hf
      rw [List.length_append, List.length_append, Bytes.length_ofWord32]
      rcases List.mem_cons.1 hf with rfl | hf
      · omega
      · have hin := ih f hf
        omega

/-- **Fields ascend and do not overlap.** -/
theorem ascending (h : Relocated placements position code fields loaded) :
    fields.Pairwise fun a b => a.place + 4 ≤ b.place := by
  induction h with
  | plain => exact .nil
  | field _ _ h ih => exact .cons (fun f hf => (h.inside f hf).1) ih

theorem length_fields_le (h : Relocated placements position code fields loaded) :
    4 * fields.length ≤ code.length := by
  induction h with
  | plain => exact Nat.zero_le _
  | field _ _ _ ih =>
      rw [List.length_cons, List.length_append, List.length_append, Bytes.length_ofWord32]
      omega

/-- **In every field stands the address of the routine that it is for**, with a tag in the code and
    without one in what is loaded. -/
theorem address (h : Relocated placements position code fields loaded) :
    ∀ field ∈ fields, ∃ target, targetOffset placements field.library field.routine = .ok target ∧
      Lies (Bytes.ofWord32 (addressTag ||| UInt32.ofNat target)) (field.place - position) code ∧
      Lies (Bytes.ofWord32 (UInt32.ofNat target)) (field.place - position) loaded := by
  induction h with
  | plain => simp
  | @field position target front code loaded field fields hplace htarget h ih =>
      intro f hf
      rcases List.mem_cons.1 hf with rfl | hf
      · have hoffset : f.place - position = front.length + 0 := by omega
        rw [hoffset]
        exact ⟨target, htarget, ((Lies.refl _).append_right code).append_left front,
          ((Lies.refl _).append_right loaded).append_left front⟩
      · obtain ⟨target', htarget', hcode, hloaded⟩ := ih f hf
        have hin := (h.inside f hf).1
        have hoffset : f.place - position = front.length + (4 + (f.place - (field.place + 4))) := by
          omega
        rw [hoffset]
        exact ⟨target', htarget', (hcode.append_left (Bytes.ofWord32 _)).append_left front,
          (hloaded.append_left (Bytes.ofWord32 _)).append_left front⟩

/-- **Outside of the fields, what is loaded is the code.** -/
theorem unchanged (h : Relocated placements position code fields loaded) {i : Nat}
    (hi : ∀ field ∈ fields, position + i < field.place ∨ field.place + 4 ≤ position + i) :
    loaded[i]? = code[i]? := by
  induction h generalizing i with
  | plain => rfl
  | @field position target front code loaded field fields hplace htarget h ih =>
      obtain ⟨hfield, hfields⟩ := List.forall_mem_cons.1 hi
      by_cases hfront : i < front.length
      · rw [List.getElem?_append_left hfront, List.getElem?_append_left hfront]
      · obtain ⟨j, rfl⟩ : ∃ j, i = front.length + (4 + j) :=
          ⟨i - (front.length + 4), by omega⟩
        have hskip (w : UInt32) (more : Bytes) :
            (front ++ (Bytes.ofWord32 w ++ more))[front.length + (4 + j)]? = more[j]? := by
          rw [List.getElem?_append_right (Nat.le_add_right ..), Nat.add_sub_cancel_left,
            ← Bytes.length_ofWord32 w, List.getElem?_append_right (Nat.le_add_right ..),
            Nat.add_sub_cancel_left]
        rw [hskip, hskip]
        refine ih fun f hf => ?_
        have hf := hfields f hf
        omega

end Relocated

/-! ## 2. Clearing tags -/

theorem toNat_addressTag {target : Nat} (h : target < 2 ^ 28) :
    (addressTag ||| UInt32.ofNat target).toNat = 2 ^ 28 + target := by
  have htarget : (UInt32.ofNat target).toNat = target :=
    UInt32.toNat_ofNat_of_lt' (by show target < 2 ^ 32; omega)
  rw [UInt32.toNat_or, htarget]
  exact (Nat.shiftLeft_add_eq_or_of_lt h 1).symm

/-- Without its tag, the address of a routine is the offset. -/
theorem clear_addressTag {target : Nat} (h : target < 2 ^ 28) :
    ∃ a b c d, Bytes.ofWord32 (addressTag ||| UInt32.ofNat target) = [a, b, c, d] ∧
      Bytes.ofWord32 (UInt32.ofNat target) = [a &&& 0x0F, b, c, d] := by
  obtain ⟨a, b, c, d, hword⟩ :
      ∃ a b c d, addressTag ||| UInt32.ofNat target = Bytes.word32 a b c d :=
    ⟨_, _, _, _, (Bytes.word32_ofWord32 _).symm⟩
  refine ⟨a, b, c, d, by rw [hword, Bytes.ofWord32_word32], ?_⟩
  have htag := toNat_addressTag h
  have hmask : (a &&& 0x0F).toNat = a.toNat % 16 := Nat.and_two_pow_sub_one_eq_mod a.toNat 4
  have hb := b.toNat_lt
  have hc := c.toNat_lt
  have hd := d.toNat_lt
  rw [hword, Bytes.toNat_word32] at htag
  have hclear : UInt32.ofNat target = Bytes.word32 (a &&& 0x0F) b c d := by
    apply UInt32.toNat_inj.1
    rw [UInt32.toNat_ofNat_of_lt' (by show target < 2 ^ 32; omega), Bytes.toNat_word32, hmask]
    omega
  rw [hclear, Bytes.ofWord32_word32]

/-- **Clearing the tags at the fields gives what is loaded.** -/
theorem Relocated.clearTags_eq (h : Relocated placements position code fields loaded)
    (htarget : ∀ spot ∈ placements, spot.offset < 2 ^ 28)
    (hlen : position + code.length ≤ 2 ^ 32) :
    Linked.clearTags (fields.map fun field => UInt32.ofNat field.place) position code = loaded := by
  induction h with
  | plain => rfl
  | @field position target front code loaded field fields hplace hoffset h ih =>
      obtain ⟨spot, hfind, rfl⟩ := targetOffset_eq_ok hoffset
      obtain ⟨a, b, c, d, hword, hcleared⟩ :=
        clear_addressTag (htarget spot (List.mem_of_find?_eq_some hfind))
      rw [List.length_append, List.length_append, Bytes.length_ofWord32] at hlen
      have hplace' : (UInt32.ofNat field.place).toNat = field.place :=
        UInt32.toNat_ofNat_of_lt' (by show field.place < 2 ^ 32; omega)
      have hskip : field.place - position = front.length := by omega
      rw [hword, List.map_cons, Linked.clearTags, hplace', hskip, List.drop_left, List.take_left]
      show front ++ ((a &&& 0x0F) :: b :: c :: d :: Linked.clearTags _ (field.place + 4) code) = _
      rw [ih (by omega), hcleared]
      rfl

/-! ## 3. Fields of linked code -/

/-- A fragment at an offset has these fields, and records their places. -/
structure Fragment.Addresses (placements : List Placement) (offset : Nat)
    (fields : List AddressField) (f : Fragment) : Prop where
  relocations : f.relocations = fields.map fun field => UInt32.ofNat field.place
  relocated : ∃ loaded, Relocated placements offset f.code fields loaded

variable {own : UInt8} {offset : Nat} {f : Fragment}

theorem addresses_plain (code : Bytes) : (Fragment.plain code).Addresses placements offset [] :=
  ⟨rfl, code, .plain offset code⟩

theorem Fragment.Addresses.append {g : Fragment} (hf : f.Addresses placements offset fields)
    (hg : g.Addresses placements (offset + f.code.length) fields') :
    (f.append g).Addresses placements offset (fields ++ fields') := by
  obtain ⟨loaded, hl⟩ := hf.relocated
  obtain ⟨loaded', hl'⟩ := hg.relocated
  refine ⟨?_, loaded ++ loaded', hl.append hl'⟩
  show f.relocations ++ g.relocations = _
  rw [hf.relocations, hg.relocations, List.map_append]

theorem addressFields_cons (own : UInt8) (offset : Nat) (s : Section) (sections : List Section) :
    addressFields own offset (s :: sections)
      = addressFields own offset [s] ++ addressFields own (offset + s.length) sections := by
  cases s <;> rfl

/-- **A section is linked with its field.** -/
theorem addresses_linkSection {s : Section} (h : linkSection placements own offset s = .ok f) :
    f.Addresses placements offset (addressFields own offset [s]) := by
  cases s with
  | literal bytes =>
      obtain rfl := Except.ok.inj h
      exact addresses_plain bytes
  | rawData =>
      obtain rfl := Except.ok.inj h
      exact addresses_plain _
  | branch mnemonic target =>
      obtain ⟨n, -, h⟩ := bind_eq_ok.1 h
      obtain ⟨condition, w, -, -, rfl⟩ := linkBranch_eq_ok h
      exact addresses_plain _
  | register call reg routine | loadAddress reg routine =>
      obtain ⟨n, -, h⟩ := bind_eq_ok.1 h
      obtain ⟨w, -, rfl⟩ := linkLoad_eq_ok h
      exact addresses_plain _
  | library call library routine =>
      obtain ⟨n, htarget, h⟩ := bind_eq_ok.1 h
      obtain rfl := Except.ok.inj h
      have hfield : Relocated placements offset
          (Bytes.ofWord16 (jumpAbsolute call)
            ++ (Bytes.ofWord32 (addressTag ||| UInt32.ofNat n) ++ []))
          [⟨offset + 2, if library = 0 then own else library, routine⟩]
          (Bytes.ofWord16 (jumpAbsolute call) ++ (Bytes.ofWord32 (UInt32.ofNat n) ++ [])) :=
        .field rfl htarget (.plain _ [])
      rw [List.append_nil] at hfield
      exact ⟨rfl, _, hfield⟩

theorem addresses_linkSections {last : Nat → Except Error Fragment} {sections : List Section}
    (hlast : ∀ n g, last n = .ok g → g.Addresses placements n [])
    (h : linkSections placements own last offset sections = .ok f) :
    f.Addresses placements offset (addressFields own offset sections) := by
  induction sections generalizing offset f with
  | nil => exact hlast offset f h
  | cons s sections ih =>
      obtain ⟨first, hfirst, h⟩ := bind_eq_ok.1 h
      obtain ⟨others, hothers, h⟩ := bind_eq_ok.1 h
      obtain rfl := Except.ok.inj h
      rw [addressFields_cons]
      refine (addresses_linkSection hfirst).append ?_
      rw [length_of_linkSection hfirst]
      exact ih hothers

theorem addresses_linkFallthrough {source : Source} {spot : Placement}
    (h : linkFallthrough placements source spot offset = .ok f) :
    f.Addresses placements offset [] := by
  unfold linkFallthrough at h
  split at h
  · obtain ⟨n, -, h⟩ := bind_eq_ok.1 h
    obtain ⟨condition, w, -, -, rfl⟩ := linkBranch_eq_ok h
    exact addresses_plain _
  · obtain rfl := Except.ok.inj h
    exact addresses_plain []

/-- **Routines are linked with their fields**, one behind the other. -/
theorem addresses_linkRoutines {sources : List Source}
    (h : linkRoutines placements (sources.zip (layoutFrom sources offset)) = .ok f) :
    f.Addresses placements offset (placedFields (sources.zip (layoutFrom sources offset))) := by
  induction sources generalizing offset f with
  | nil =>
      obtain rfl := Except.ok.inj h
      exact addresses_plain []
  | cons source sources ih =>
      obtain ⟨first, hfirst, h⟩ := bind_eq_ok.1 h
      obtain ⟨others, hothers, h⟩ := bind_eq_ok.1 h
      obtain rfl := Except.ok.inj h
      refine (addresses_linkSections (fun _ _ => addresses_linkFallthrough) hfirst).append ?_
      rw [length_of_linkRoutine hfirst]
      exact ih hothers

/-- **Linked routines have the fields of their sections**, and record the places. -/
theorem addresses_of_link {sources : List Source} {linked : Linked}
    (h : link sources = .ok linked) :
    (Fragment.mk linked.code linked.relocations).Addresses linked.routines 0
      (placedFields (sources.zip linked.routines)) := by
  obtain ⟨f, hf, hcode, hrelocations, hroutines, -⟩ := link_eq_ok h
  have hrest : f.Addresses linked.routines startOffset
      (placedFields (sources.zip linked.routines)) := by
    have haddresses := addresses_linkRoutines hf
    rwa [← hroutines] at haddresses
  have hstart : (Fragment.plain (Bytes.ofWord16 rts)).Addresses linked.routines 0 [] :=
    addresses_plain _
  rw [hcode, hrelocations]
  exact hstart.append hrest

/-! ## 4. The hunk file -/

namespace Linked

/-- What it is for linked routines to be a loadable file. -/
structure Loadable (sources : List Source) (linked : Linked) : Prop where
  /-- The relocations are the places of the addresses in the sections. -/
  places : linked.relocations.map UInt32.toNat
    = (placedFields (sources.zip linked.routines)).map AddressField.place
  ascending : linked.relocations.Pairwise fun a b => a.toNat + 4 ≤ b.toNat
  inside : ∀ a ∈ linked.relocations, a.toNat + 4 ≤ linked.code.length
  /-- At each of them stands the offset of the routine that is named, with a tag in the code and
      without one in the file. -/
  addresses : ∀ field ∈ placedFields (sources.zip linked.routines), ∃ target,
    linked.placement? field.library field.routine = some target ∧ target.offset < 2 ^ 28 ∧
      Bytes.readWord32 linked.code field.place = .ok (addressTag ||| UInt32.ofNat target.offset) ∧
      Bytes.readWord32 linked.loadable field.place = .ok (UInt32.ofNat target.offset)
  /-- All other bytes are those of the code. -/
  unchanged : ∀ i < linked.code.length,
    (∀ a ∈ linked.relocations, i < a.toNat ∨ a.toNat + 4 ≤ i) →
      linked.loadable[i]? = linked.code[i]?
  length : linked.loadable.length = (linked.code.length + 3) / 4 * 4
  padded : ∀ i, linked.code.length ≤ i → i < linked.loadable.length → linked.loadable[i]? = some 0
  code : linked.toHunkFile.firstCode? = some linked.loadable
  read : HunkFile.parse linked.toHunkFile.write = .ok linked.toHunkFile

variable {sources : List Source} {linked : Linked}

theorem canonical_toHunkFile (hcode : linked.loadable.Whole)
    (hrelocations : linked.relocations.length < 2 ^ 32) :
    ∀ hunk ∈ linked.toHunkFile.hunks, hunk.Canonical := by
  unfold toHunkFile
  dsimp only
  split
  · simp only [List.mem_cons, List.not_mem_nil, or_false, forall_eq_or_imp, forall_eq]
    exact ⟨hcode, trivial⟩
  · rename_i hne
    simp only [List.mem_cons, List.not_mem_nil, or_false, forall_eq_or_imp, forall_eq]
    refine ⟨hcode, fun block hb => ?_, trivial⟩
    obtain rfl := List.mem_singleton.1 hb
    exact ⟨hne, hrelocations⟩

/-- **The hunk file of linked code is read as it was written.** -/
theorem read_toHunkFile (hcode : linked.loadable.Whole)
    (hrelocations : linked.relocations.length < 2 ^ 32) (hlen : linked.loadable.length < 2 ^ 32) :
    HunkFile.parse linked.toHunkFile.write = .ok linked.toHunkFile := by
  have hcanonical := canonical_toHunkFile hcode hrelocations
  have hsegments : HunkFile.segmentCount linked.toHunkFile.hunks = 1 := by
    unfold toHunkFile
    dsimp only
    split <;> rfl
  have hformed : linked.toHunkFile.WellFormed :=
    ⟨Nat.le_refl 1, (by decide : 1 < 0x100000000),
      fun hunk hm => Hunk.fits_of_canonical (hcanonical hunk hm), hsegments⟩
  have hsize : (UInt32.ofNat linked.loadable.length) / 4 * 4
      = UInt32.ofNat linked.loadable.length := by
    have hwhole := hcode.1
    have hnat : (UInt32.ofNat linked.loadable.length).toNat = linked.loadable.length :=
      UInt32.toNat_ofNat_of_lt' hlen
    apply UInt32.toNat_inj.1
    rw [UInt32.toNat_mul, UInt32.toNat_div, hnat]
    show linked.loadable.length / 4 * 4 % 2 ^ 32 = _
    omega
  have hhunks : linked.toHunkFile.hunks.map Hunk.normalize = linked.toHunkFile.hunks :=
    (List.map_congr_left fun hunk hm => Hunk.normalize_of_canonical (hcanonical hunk hm)).trans
      (List.map_id' _)
  have hnormal : linked.toHunkFile.normalize = linked.toHunkFile := by
    unfold HunkFile.normalize
    rw [hhunks]
    show HunkFile.mk _ [⟨UInt32.ofNat linked.loadable.length / 4 * 4, .any⟩] _ = _
    rw [hsize]
    rfl
  have hread := hformed.read
  rwa [hnormal] at hread

end Linked

/-- Linked code is loaded as its fields say, and the relocations are their places. -/
theorem exists_loaded {sources : List Source} {linked : Linked} (h : link sources = .ok linked)
    (hl : linked.code.length < 2 ^ 28) :
    ∃ loaded, Relocated linked.routines 0 linked.code (placedFields (sources.zip linked.routines))
        loaded ∧ linked.loadable = Bytes.padToLong loaded ∧
      linked.relocations.map UInt32.toNat
        = (placedFields (sources.zip linked.routines)).map AddressField.place := by
  obtain ⟨hrelocations, loaded, hrelocated⟩ := addresses_of_link h
  dsimp only at hrelocations hrelocated
  have htargets : ∀ spot ∈ linked.routines, spot.offset < 2 ^ 28 := fun spot hm =>
    Nat.lt_of_le_of_lt (offset_le_of_link h hm) hl
  refine ⟨loaded, hrelocated, ?_, ?_⟩
  · rw [Linked.loadable, hrelocations, hrelocated.clearTags_eq htargets (by omega)]
  · rw [hrelocations, List.map_map]
    refine List.map_congr_left fun field hm => ?_
    have hin := (hrelocated.inside field hm).2
    exact UInt32.toNat_ofNat_of_lt' (by show field.place < 2 ^ 32; omega)

/-- **Linked routines are a loadable file**: the places of their addresses ascend and do not
    overlap, the file holds at each of them the offset of the routine that is named, and has all
    other bytes from the code; and it is read as it was written. -/
theorem link_loadable {sources : List Source} {linked : Linked} (h : link sources = .ok linked)
    (hl : linked.code.length < 2 ^ 28) : linked.Loadable sources := by
  obtain ⟨loaded, hrelocated, hloadable, hplaces⟩ := exists_loaded h hl
  have hlength : linked.loadable.length = (linked.code.length + 3) / 4 * 4 := by
    rw [hloadable, Bytes.length_padToLong, hrelocated.length_eq]
  have hcount : linked.relocations.length < 2 ^ 32 := by
    have hfields := hrelocated.length_fields_le
    have hsame := congrArg List.length hplaces
    rw [List.length_map, List.length_map] at hsame
    omega
  -- what holds of the places of the fields holds of the relocations, and the other way round
  have hforall : ∀ p : Nat → Prop, (∀ a ∈ linked.relocations, p a.toNat)
      ↔ ∀ field ∈ placedFields (sources.zip linked.routines), p field.place := fun p => by
    rw [← List.forall_mem_map, hplaces, List.forall_mem_map]
  constructor
  case places => exact hplaces
  case ascending =>
    have hascending : ((placedFields (sources.zip linked.routines)).map
        AddressField.place).Pairwise fun a b => a + 4 ≤ b :=
      List.pairwise_map.2 hrelocated.ascending
    rw [← hplaces] at hascending
    exact List.pairwise_map.1 hascending
  case inside =>
    refine (hforall fun place => place + 4 ≤ linked.code.length).2 fun field hm => ?_
    have hin := (hrelocated.inside field hm).2
    omega
  case addresses =>
    intro field hm
    obtain ⟨target, htarget, hcode, hfile⟩ := hrelocated.address field hm
    obtain ⟨spot, hfind, rfl⟩ := targetOffset_eq_ok htarget
    have hle := offset_le_of_link h (List.mem_of_find?_eq_some hfind)
    rw [hloadable]
    exact ⟨spot, hfind, Nat.lt_of_le_of_lt hle hl, Bytes.readWord32_eq_ok.2 hcode.drop,
      Bytes.readWord32_eq_ok.2 (hfile.append_right _).drop⟩
  case unchanged =>
    intro i hi hout
    rw [hloadable, Bytes.getElem?_padToLong_of_lt (by rwa [hrelocated.length_eq])]
    refine hrelocated.unchanged ?_
    rw [Nat.zero_add]
    exact (hforall fun place => i < place ∨ place + 4 ≤ i).1 hout
  case length => exact hlength
  case padded =>
    intro i hle hlt
    rw [hloadable] at hlt ⊢
    exact Bytes.getElem?_padToLong_of_le (by rwa [hrelocated.length_eq]) hlt
  case code =>
    unfold Linked.toHunkFile HunkFile.firstCode?
    dsimp only
    split <;> rfl
  case read => exact Linked.read_toHunkFile ⟨by omega, by omega⟩ hcount (by omega)

/-- The two absolute addresses of `interlinked` become offsets of the first and the last routine. -/
theorem link_loadable_interlinked :
    ∃ linked, link interlinked = .ok linked ∧ linked.code.length < 2 ^ 28 ∧
      linked.Loadable interlinked ∧ linked.relocations = [26, 32] ∧
      linked.toHunkFile.hunks = [.code linked.loadable, .reloc32 [⟨0, [26, 32]⟩], .finish] ∧
      linked.loadable.drop 24
        = [0x4E, 0xF9, 0, 0, 0, 2, 0x4E, 0xB9, 0, 0, 0, 40, 0x60, 0, 0xFF, 0xDC, 0x61, 0, 0xFF,
          0xFE, 0x4E, 0x75, 0, 0] :=
  ⟨_, rfl, by decide, link_loadable rfl (by decide), rfl, rfl, by decide⟩

end AmigaBinary.Routine
