import AmigaBinary.Program.Parse
import AmigaBinary.Proofs.Decrunch.Squash.Acceptance
import AmigaBinary.Proofs.Hunk.RoundTrip

/-!
# The code hunks of a program

A program is stored as pairs of a code hunk and an end mark (`pairs`), and each code hunk holds its
contents as they are or squashed (`Stores`). What a hunk file pads such a hunk with stands behind
its packed region and does not count (`Decrunch.Squash.unsquash_append`), so the contents are got
back from the file of the program (`codeBodies_container`).
-/

namespace AmigaBinary

/-! ## 1. Squashed hunks -/

namespace Decrunch.Squash

variable {data out : Bytes}

/-- **What stands behind a packed region does not count.** -/
theorem unsquash_append (h : unsquash data = .ok out) (behind : Bytes) :
    unsquash (data ++ behind) = .ok out := by
  obtain ⟨buffer, length, p, rest, tokens, spare, rfl, hlen, hs, rfl⟩ := unsquash_eq_ok.1 h
  refine unsquash_eq_ok.2 ⟨buffer, length, p, rest ++ behind, tokens, spare, ?_, hlen, hs, rfl⟩
  unfold file
  simp only [List.append_assoc]

/-- What is accepted is recognised. -/
theorem isSquashed_of_unsquash (h : unsquash data = .ok out) : isSquashed data = true := by
  obtain ⟨buffer, length, p, rest, tokens, spare, rfl, -, -, -⟩ := unsquash_eq_ok.1 h
  have hmagic : (file buffer length p.bytes rest).take 4 = magic := rfl
  have hlen : 12 < (file buffer length p.bytes rest).length := by
    unfold file
    simp only [List.length_append, Bytes.length_ofWord32, p.length_bytes]
    omega
  rw [isSquashed, hmagic, decide_eq_true hlen]
  exact beq_self_eq_true magic

/-- An output is as long as its size word says. -/
theorem length_of_unsquash (h : unsquash data = .ok out) : out.length < 0x100000000 := by
  obtain ⟨buffer, length, p, rest, tokens, spare, -, -, hs, rfl⟩ := unsquash_eq_ok.1 h
  rw [denote, length_applyAll, hs.size]
  exact p.size.toNat_lt

end Decrunch.Squash

namespace Program

open Decrunch.Squash (isSquashed unsquash)

/-! ## 2. Stored contents -/

/-- How the contents of a code hunk may be stored: as they are, if they are whole longwords and are
    not taken for squashed ones, or squashed. -/
inductive Stores : Bytes → Bytes → Prop where
  | plain {body : Bytes} (hwhole : body.length % 4 = 0) (hplain : isSquashed body = false) :
      Stores body body
  | squashed {stream body : Bytes} (h : unsquash stream = .ok body) : Stores stream body

/-- **The contents of a hunk are got back**, also from behind what it was padded with. -/
theorem codeBody_of_stores {data body : Bytes} (h : Stores data body) (index : Nat) :
    codeBody index (Bytes.padToLong data) = .ok body := by
  cases h with
  | plain hwhole hplain =>
      rw [Bytes.padToLong_of_whole hwhole, codeBody, if_neg (by rw [hplain]; exact Bool.noConfusion)]
  | squashed h =>
      have hpadded := Decrunch.Squash.unsquash_append h
        (List.replicate ((4 - data.length % 4) % 4) 0)
      rw [Bytes.padToLong, codeBody, if_pos (Decrunch.Squash.isSquashed_of_unsquash hpadded),
        hpadded]
      rfl

/-! ## 3. Pairs of hunks -/

/-- Code hunks, each with an end mark behind it. -/
def pairs : List Bytes → List Hunk
  | [] => []
  | data :: stored => .code data :: .finish :: pairs stored

theorem map_normalize_pairs (stored : List Bytes) :
    (pairs stored).map Hunk.normalize = pairs (stored.map Bytes.padToLong) := by
  induction stored with
  | nil => rfl
  | cons data stored ih =>
      rw [pairs, List.map_cons, List.map_cons, ih]
      rfl

theorem segmentCount_pairs (stored : List Bytes) :
    HunkFile.segmentCount (pairs stored) = stored.length := by
  unfold HunkFile.segmentCount
  induction stored with
  | nil => rfl
  | cons data stored ih =>
      rw [pairs, List.countP_cons_of_pos rfl, List.countP_cons_of_neg Bool.noConfusion, ih,
        List.length_cons]

theorem forall_mem_pairs {p : Hunk → Prop} {stored : List Bytes} (hfinish : p .finish) :
    (∀ hunk ∈ pairs stored, p hunk) ↔ ∀ data ∈ stored, p (.code data) := by
  induction stored with
  | nil =>
      rw [pairs]
      simp
  | cons data stored ih =>
      rw [pairs, List.forall_mem_cons, List.forall_mem_cons, List.forall_mem_cons, ih]
      exact ⟨fun h => ⟨h.1, h.2.2⟩, fun h => ⟨h.1, hfinish, h.2⟩⟩

/-- The contents of a row of hunks are those of pairs, one by one. -/
theorem codeBodiesFrom_eq_ok {index : Nat} {hunks : List Hunk} {bodies : List Bytes}
    (h : codeBodiesFrom index hunks = .ok bodies) :
    ∃ stored, hunks = pairs stored ∧
      List.Forall₂ (fun data body => ∃ i, codeBody i data = .ok body) stored bodies := by
  fun_induction codeBodiesFrom index hunks generalizing bodies with
  | case1 index =>
      obtain rfl := Except.ok.inj h
      exact ⟨[], rfl, .nil⟩
  | case2 index data hunks ih =>
      obtain ⟨body, hbody, h⟩ := bind_eq_ok.1 h
      obtain ⟨more, hmore, h⟩ := bind_eq_ok.1 h
      obtain rfl := Except.ok.inj h
      obtain ⟨stored, rfl, hstored⟩ := ih hmore
      exact ⟨data :: stored, rfl, .cons ⟨index, hbody⟩ hstored⟩
  | case3 => cases h
  | case4 => cases h

/-- The contents of padded pairs are what they store. -/
theorem codeBodiesFrom_pairs {stored bodies : List Bytes} (h : List.Forall₂ Stores stored bodies)
    (index : Nat) :
    codeBodiesFrom index (pairs (stored.map Bytes.padToLong)) = .ok bodies := by
  induction h generalizing index with
  | nil => rfl
  | cons hfirst _ ih =>
      exact bind_eq_ok.2 ⟨_, codeBody_of_stores hfirst index, bind_eq_ok.2 ⟨_, ih (index + 1), rfl⟩⟩

/-! ## 4. The file of a program -/

/-- The hunk file of stored contents. -/
def container (sizes : List SegmentSize) (stored : List Bytes) : HunkFile :=
  ⟨.complete, sizes, pairs stored⟩

theorem wellFormed_container {sizes : List SegmentSize} {stored : List Bytes} (hne : stored ≠ [])
    (hsizes : sizes.length = stored.length) (hcount : stored.length < 0x100000000)
    (hfits : ∀ data ∈ stored, (Hunk.code data).Fits) : (container sizes stored).WellFormed where
  nonempty := by
    show 1 ≤ sizes.length
    rw [hsizes]
    exact List.length_pos_iff.2 hne
  sizes := by
    show sizes.length < 0x100000000
    rwa [hsizes]
  hunks := (forall_mem_pairs trivial).2 hfits
  extent := by
    show HunkFile.segmentCount (pairs stored) = sizes.length
    rw [segmentCount_pairs, hsizes]

theorem fits_of_codeBody {index : Nat} {data body : Bytes} (h : codeBody index data = .ok body)
    (hfits : (Hunk.code data).Fits) : (Hunk.code body).Fits := by
  unfold codeBody at h
  split at h
  · cases hout : unsquash data with
    | error e =>
        rw [hout] at h
        cases h
    | ok out =>
        rw [hout] at h
        obtain rfl := Except.ok.inj h
        have hlen := Decrunch.Squash.length_of_unsquash hout
        show (out.length + 3) / 4 < 0x100000000
        omega
  · obtain rfl := Except.ok.inj h
    exact hfits

theorem fits_of_codeBodiesFrom {stored bodies : List Bytes}
    (h : List.Forall₂ (fun data body => ∃ i, codeBody i data = .ok body) stored bodies)
    (hfits : ∀ data ∈ stored, (Hunk.code data).Fits) : ∀ body ∈ bodies, (Hunk.code body).Fits := by
  induction h with
  | nil => exact List.forall_mem_nil _
  | cons hbody _ ih =>
      obtain ⟨hdata, hstored⟩ := List.forall_mem_cons.1 hfits
      obtain ⟨i, hbody⟩ := hbody
      exact List.forall_mem_cons.2 ⟨fits_of_codeBody hbody hdata, ih hstored⟩

/-- **No file gives more contents than it has room to count, or larger ones.** -/
theorem fits_of_codeBodies {data : Bytes} {file : HunkFile} {bodies : List Bytes}
    (hfile : HunkFile.parse data = .ok file) (h : codeBodies file = .ok bodies) :
    bodies.length < 0x100000000 ∧ ∀ body ∈ bodies, (Hunk.code body).Fits := by
  obtain ⟨l, -, hl⟩ := HunkFile.parse_eq_ok.1 hfile
  unfold codeBodies at h
  split at h
  · rename_i hcomplete
    obtain ⟨stored, hhunks, hstored⟩ := codeBodiesFrom_eq_ok h
    have hextent := hl.agrees
    have hfits := hl.wellFormed.hunks
    rw [of_decide_eq_true hcomplete, hhunks, segmentCount_pairs] at hextent
    rw [hhunks, forall_mem_pairs trivial] at hfits
    refine ⟨?_, fits_of_codeBodiesFrom hstored hfits⟩
    rw [← hstored.length_eq, show stored.length = file.sizes.length from hextent]
    exact hl.wellFormed.sizes
  · cases h

/-- **A program survives being stored**: its code hunks, each as it is or squashed, are written as
    a file from which their contents are got back, one by one. They have to fit the counts of the
    file, which those of every file do. -/
theorem codeBodies_container :
    (∀ (sizes : List SegmentSize) (stored bodies : List Bytes), bodies ≠ [] →
      List.Forall₂ Stores stored bodies → sizes.length = bodies.length →
      bodies.length < 0x100000000 → (∀ data ∈ stored, (Hunk.code data).Fits) →
        ∃ file, HunkFile.parse (container sizes stored).write = .ok file ∧
          codeBodies file = .ok bodies) ∧
      ∀ (data : Bytes) (file : HunkFile) (bodies : List Bytes),
        HunkFile.parse data = .ok file → codeBodies file = .ok bodies →
          bodies.length < 0x100000000 ∧ ∀ body ∈ bodies, (Hunk.code body).Fits := by
  refine ⟨?_, fun data file bodies => fits_of_codeBodies⟩
  intro sizes stored bodies hne hstores hsizes hcount hfits
  have hlen := hstores.length_eq
  have hstored : stored ≠ [] := by
    rintro rfl
    cases hstores
    exact hne rfl
  have hformed := wellFormed_container hstored (hsizes.trans hlen.symm) (by omega) hfits
  refine ⟨_, hformed.read, ?_⟩
  show codeBodiesFrom 0 ((pairs stored).map Hunk.normalize) = _
  rw [map_normalize_pairs]
  exact codeBodiesFrom_pairs hstores 0

/-- A hunk that is stored as it is, a squashed text with two bytes behind it that do not belong to
    it, and an empty hunk. -/
def assorted : List Bytes :=
  [[0x4E, 0x75, 0, 0],
    Decrunch.Squash.file 16 20 Decrunch.Squash.abracadabra.bytes [0x41, 0x42], []]

/-- The text is got back from its hunk, which the file pads with two zeros. -/
theorem codeBodies_container_assorted :
    ∃ file, HunkFile.parse (container [⟨4, .chip⟩, ⟨0, .any⟩, ⟨7, .fast⟩] assorted).write
        = .ok file ∧
      codeBodies file = .ok [[0x4E, 0x75, 0, 0], Bytes.ascii "abracadabra", []] := by
  have htext : unsquash (Decrunch.Squash.file 16 20 Decrunch.Squash.abracadabra.bytes [0x41, 0x42])
      = .ok (Bytes.ascii "abracadabra") :=
    Decrunch.Squash.unsquash_append Decrunch.Squash.unsquash_abracadabra [0x41, 0x42]
  have hstores : List.Forall₂ Stores assorted
      [[0x4E, 0x75, 0, 0], Bytes.ascii "abracadabra", []] :=
    .cons (.plain rfl rfl) (.cons (.squashed htext) (.cons (.plain rfl rfl) .nil))
  exact codeBodies_container.1 _ _ _ (List.cons_ne_nil _ _) hstores rfl (by decide) (by decide)

end Program

end AmigaBinary
