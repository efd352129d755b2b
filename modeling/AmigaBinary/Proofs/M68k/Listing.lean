import AmigaBinary.M68k.Listing
import AmigaBinary.Proofs.M68k.Locality

/-!
# Listings and runs

A listing tiles its code: each instruction starts where the one before it ends, and behind the last
one no instruction can be read (`Lists`). As an instruction depends on its own bytes only, the
listing of a front of the code is a front of the listing, and from each instruction on the listing
is that of the code from there on (`disassemble_tiles`). Its offsets are sums of 64 bits, which are
exact where all of the code has an offset. A run up to the first instruction that
execution does not fall through is such a front, so the bytes of a run are listed as the run
(`runUntilReturn_iff`).
-/

namespace AmigaBinary.M68k

open Instruction WordReader

variable {code rest tail : Bytes} {offset base finish : Nat} {i : Instruction}
  {is front back : List Instruction}

/-! ## 1. Bytes of instructions -/

/-- The bytes of instructions, one behind the other. -/
def bytesOf (is : List Instruction) : Bytes :=
  is.flatMap Instruction.bytes

/-- The length of instructions in bytes. -/
def extent (is : List Instruction) : Nat :=
  (bytesOf is).length

theorem bytesOf_append (front back : List Instruction) :
    bytesOf (front ++ back) = bytesOf front ++ bytesOf back :=
  List.flatMap_append

theorem extent_cons (i : Instruction) (is : List Instruction) :
    extent (i :: is) = i.byteLength + extent is := by
  rw [extent, bytesOf, List.flatMap_cons, List.length_append, length_bytes]
  rfl

/-- Bytes do not depend on offsets. -/
theorem bytesOf_wrap (is : List Instruction) : bytesOf (is.map wrap) = bytesOf is :=
  List.flatMap_map ..

theorem extent_wrap (is : List Instruction) : extent (is.map wrap) = extent is := by
  rw [extent, bytesOf_wrap]
  rfl

/-! ## 2. Listings -/

theorem listing_of_error {e : Error} (h : decode ⟨code, offset, []⟩ = .error e) :
    listing code offset = [] := by
  cases code with
  | nil => rw [listing]
  | cons byte code =>
      rw [listing]
      split
      · rfl
      · rename_i hok
        cases h.symm.trans hok

theorem listing_of_ok (h : decode ⟨code, offset, []⟩ = .ok i) :
    listing code offset
      = i :: listing (code.drop i.byteLength) (offset + i.byteLength) := by
  cases code with
  | nil => cases h
  | cons byte code =>
      rw [listing]
      split
      · rename_i herror
        cases h.symm.trans herror
      · rename_i hok
        obtain rfl := Except.ok.inj (h.symm.trans hok)
        rfl

/-- The instructions of code at an offset, and what no instruction can be read from behind them. -/
inductive Lists : Bytes → Nat → List Instruction → Bytes → Prop where
  | stop {tail : Bytes} {offset : Nat} (h : Unread tail) : Lists tail offset [] tail
  | next {i : Instruction} {is : List Instruction} {rest tail : Bytes} (hi : i.Stands)
      (h : Lists rest (i.offset + i.byteLength) is tail) :
      Lists (i.bytes ++ rest) i.offset (i :: is) tail

theorem Lists.bytes (h : Lists code offset is tail) : code = bytesOf is ++ tail := by
  induction h with
  | stop _ => rfl
  | next _ _ ih =>
      rw [ih, bytesOf, bytesOf, List.flatMap_cons, List.append_assoc]

theorem Lists.unread (h : Lists code offset is tail) : Unread tail := by
  induction h with
  | stop h => exact h
  | next _ _ ih => exact ih

/-- **What is behind the code does not change its instructions.** -/
theorem Lists.listing_append (h : Lists code offset is tail) (more : Bytes) :
    listing (code ++ more) offset = is ++ listing (tail ++ more) (offset + extent is) := by
  induction h with
  | stop _ => rfl
  | @next i is rest tail hi _ ih =>
      have hdecode : decode ⟨i.bytes ++ rest ++ more, i.offset, []⟩ = .ok i := by
        rw [List.append_assoc]
        exact hi (rest ++ more) i.offset
      have hdrop : (i.bytes ++ rest ++ more).drop i.byteLength = rest ++ more := by
        rw [List.append_assoc, ← length_bytes, List.drop_left]
      rw [listing_of_ok hdecode, hdrop, ih, extent_cons, ← Nat.add_assoc]
      rfl

theorem listing_of_unread (h : Unread code) (offset : Nat) : listing code offset = [] :=
  listing_of_error (decode_eq_error.2 ⟨h, rfl⟩)

theorem Lists.eq_listing (h : Lists code offset is tail) : is = listing code offset := by
  have happend := h.listing_append []
  rw [List.append_nil, List.append_nil, listing_of_unread h.unread, List.append_nil] at happend
  exact happend.symm

theorem exists_lists (code : Bytes) (offset : Nat) :
    ∃ tail, Lists code offset (listing code offset) tail := by
  induction code, offset using listing.induct with
  | case1 offset =>
      rw [listing]
      exact ⟨[], .stop (.inl (by decide))⟩
  | case2 byte code offset e h =>
      rw [listing_of_error h]
      exact ⟨_, .stop (decode_eq_error.1 h).1⟩
  | case3 byte code offset i h ih =>
      obtain ⟨tail, htail⟩ := ih
      rw [listing_of_ok h]
      obtain ⟨hi, rfl, rest, hcode⟩ := decode_eq_ok.1 h
      rw [hcode, ← length_bytes, List.drop_left, length_bytes] at htail ⊢
      exact ⟨tail, .next hi htail⟩

/-! ## 3. Parts of a listing -/

/-- The bytes of the first instructions are listed as these, without a byte left. -/
theorem Lists.take (h : Lists code offset (front ++ back) tail) :
    Lists (bytesOf front) offset front [] := by
  induction front generalizing code offset with
  | nil => exact .stop (.inl (by decide))
  | cons i front ih =>
      cases h with
      | next hi h => exact .next hi (ih h)

/-- The other instructions are those of the code behind the first ones. -/
theorem Lists.drop (h : Lists code offset (front ++ back) tail) :
    Lists (code.drop (extent front)) (offset + extent front) back tail := by
  induction front generalizing code offset with
  | nil => exact h
  | cons i front ih =>
      cases h with
      | next hi h =>
          have hdrop := ih h
          rw [extent_cons, ← List.drop_drop, ← length_bytes, List.drop_left, length_bytes,
            ← Nat.add_assoc]
          exact hdrop

/-- Each instruction is read where those in front of it end. -/
theorem Lists.placed (h : Lists code offset (front ++ i :: back) tail) :
    i.offset = offset + extent front ∧
      readInstruction code (extent front) = .ok { i with offset := extent front } := by
  have hhere := h.drop
  unfold readInstruction WordReader.start
  generalize code.drop (extent front) = here at hhere
  generalize offset + extent front = place at hhere
  cases hhere with
  | next hi h => exact ⟨rfl, hi _ _⟩

/-! ## 4. Disassembly -/

/-- What it is for instructions to tile code that is loaded at `base`. -/
structure Tiles (code : Bytes) (base : Nat) (is : List Instruction) : Prop where
  /-- The bytes of the instructions are a front of the code. -/
  bytes : bytesOf is <+: code
  /-- Each instruction starts where those in front of it end, and is what is read there. -/
  placed : ∀ front i back, is = front ++ i :: back →
    i.offset = (base + extent front) % wordCount ∧
      readInstruction code (extent front) = .ok { i with offset := extent front }
  /-- Where all of the code has an offset, none of the sums runs over. -/
  unwrapped : base + code.length ≤ wordCount → ∀ front i back, is = front ++ i :: back →
    i.offset = base + extent front
  /-- The code behind them has no opcode, or its first instruction is cut off. -/
  unread : Unread (code.drop (extent is))
  short : (code.drop (extent is)).length < 10

/-- The instructions in front of one of a listing, and it, are inside of the code. -/
theorem extent_le_of_prefix (h : bytesOf is <+: code) (his : is = front ++ i :: back) :
    extent front + 2 ≤ code.length := by
  have hlength := h.length_le
  rw [his, bytesOf_append, bytesOf, bytesOf, List.flatMap_cons, List.length_append,
    List.length_append, length_bytes, byteLength] at hlength
  show (bytesOf front).length + 2 ≤ _
  unfold bytesOf
  omega

theorem Lists.tiles (h : Lists code base is tail) : Tiles code base (is.map wrap) := by
  have hbytes : bytesOf (is.map wrap) <+: code := by
    rw [bytesOf_wrap]
    exact ⟨tail, h.bytes.symm⟩
  have hplaced : ∀ front i back, is.map wrap = front ++ i :: back →
      i.offset = (base + extent front) % wordCount ∧
        readInstruction code (extent front) = .ok { i with offset := extent front } := by
    intro front i back his
    obtain ⟨front, rest, rfl, rfl, hrest⟩ := List.map_eq_append_iff.1 his
    obtain ⟨i, back, rfl, rfl, rfl⟩ := List.map_eq_cons_iff.1 hrest
    obtain ⟨hoffset, hread⟩ := h.placed
    rw [extent_wrap]
    exact ⟨congrArg (· % wordCount) hoffset, hread⟩
  have htail : code.drop (extent (is.map wrap)) = tail := by
    rw [h.bytes, extent_wrap, extent, List.drop_left]
  constructor
  case bytes => exact hbytes
  case placed => exact hplaced
  case unwrapped =>
    intro hfits front i back his
    have hinside := extent_le_of_prefix hbytes his
    rw [(hplaced front i back his).1]
    exact Nat.mod_eq_of_lt (by omega)
  case unread =>
    rw [htail]
    exact h.unread
  case short =>
    rw [htail]
    exact h.unread.length_lt

/-- Of a base, only its last 64 bits count. -/
theorem Lists.wrap_eq {other : Nat} (h : Lists code base is tail)
    (hbase : base % wordCount = other % wordCount) :
    is.map wrap = disassemble code other := by
  unfold disassemble
  induction h generalizing other with
  | stop h => rw [listing_of_unread h, List.map_nil]
  | @next i is rest tail hi _ ih =>
      have hnext : (i.offset + i.byteLength) % wordCount
          = (other + i.byteLength) % wordCount := by
        rw [Nat.add_mod, hbase, ← Nat.add_mod]
      have hsame : ({ i with offset := other } : Instruction).wrap = i.wrap := by
        unfold wrap
        rw [hbase]
      have hdrop : (i.bytes ++ rest).drop i.byteLength = rest := by
        rw [← length_bytes, List.drop_left]
      have hlisted : listing (i.bytes ++ rest) other
          = { i with offset := other } :: listing rest (other + i.byteLength) := by
        rw [listing_of_ok (hi rest other)]
        exact congrArg (_ :: listing · _) hdrop
      rw [hlisted, List.map_cons, List.map_cons, hsame, ih hnext]

/-- **Disassembly tiles the code and is stable.** What is not listed is shorter than any instruction
    that it could be the start of. The listing of a front of the code is a front of the listing, and
    behind each instruction the listing goes on as that of the code from there on. All sums are of
    64 bits. -/
theorem disassemble_tiles (code : Bytes) (base : Nat) :
    Tiles code base (disassemble code base) ∧
      (∀ more, disassemble code base <+: disassemble (code ++ more) base) ∧
      ∀ front back, disassemble code base = front ++ back →
        disassemble (code.drop (extent front)) ((base + extent front) % wordCount) = back := by
  obtain ⟨tail, h⟩ := exists_lists code base
  refine ⟨h.tiles, fun more => ?_, fun front back hsplit => ?_⟩
  · unfold disassemble
    rw [h.listing_append more, List.map_append]
    exact List.prefix_append _ _
  · obtain ⟨front, back, hlisted, rfl, rfl⟩ := List.map_eq_append_iff.1 hsplit
    rw [hlisted] at h
    rw [extent_wrap]
    exact (h.drop.wrap_eq (Nat.mod_mod _ _).symm).symm

/-- Behind the last offset the next instruction is at offset 0. -/
example : (disassemble [0x4E, 0x71, 0x4E, 0x75] 0xFFFFFFFFFFFFFFFE).map Instruction.offset
    = [0xFFFFFFFFFFFFFFFE, 0] := by decide +kernel

/-! ## 5. Runs -/

/-- Execution does not go on behind the instruction: it jumps, branches or returns, or its word is
    no instruction. -/
def Instruction.StopsFlow (i : Instruction) : Prop :=
  i.code = none ∨ ∃ form, i.code = some form ∧
    form.mnemonic ∈ [Mnemonic.jmp, .branch .always, .rts, .rtr, .rte]

theorem endsFlow_iff : i.endsFlow = true ↔ i.StopsFlow := by
  unfold endsFlow StopsFlow
  cases i.code with
  | none => simp
  | some form =>
      have hlisted : form.mnemonic.endsFlow = true ↔
          form.mnemonic ∈ [Mnemonic.jmp, .branch .always, .rts, .rtr, .rte] := by
        unfold Mnemonic.endsFlow
        split <;> simp_all
      simp [hlisted]

/-- Instructions of which the last one stops the flow, and no other one does. -/
inductive Run : List Instruction → Prop where
  | last {i : Instruction} (h : i.StopsFlow) : Run [i]
  | next {i : Instruction} {is : List Instruction} (hi : ¬ i.StopsFlow) (h : Run is) :
      Run (i :: is)

theorem endOfFlow_of_error {e : Error} (h : decode ⟨code, offset, []⟩ = .error e) :
    endOfFlow code offset = .error e := by
  cases code with
  | nil =>
      obtain rfl := Except.error.inj ((decode_of_lone (by decide) offset).symm.trans h)
      rw [endOfFlow]
      rfl
  | cons byte code =>
      rw [endOfFlow, h]

theorem endOfFlow_of_ok (h : decode ⟨code, offset, []⟩ = .ok i) :
    endOfFlow code offset = if i.endsFlow then .ok (offset + i.byteLength)
      else endOfFlow (code.drop i.byteLength) (offset + i.byteLength) := by
  cases code with
  | nil => cases h
  | cons byte code =>
      rw [endOfFlow, h]

/-- **The flow ends behind the first instruction that stops it.** -/
theorem Lists.endOfFlow_eq_ok (h : Lists code offset is tail) :
    endOfFlow code offset = .ok finish ↔
      ∃ front back, is = front ++ back ∧ Run front ∧ finish = offset + extent front := by
  induction h with
  | stop h =>
      rw [endOfFlow_of_error (decode_eq_error.2 ⟨h, rfl⟩)]
      refine iff_of_false (fun h => by cases h) fun h => ?_
      obtain ⟨front, back, hsplit, hrun, -⟩ := h
      rw [(List.append_eq_nil_iff.1 hsplit.symm).1] at hrun
      cases hrun
  | @next i is rest tail hi _ ih =>
      rw [endOfFlow_of_ok (hi rest i.offset), ← length_bytes, List.drop_left, length_bytes]
      by_cases hstops : i.StopsFlow
      · rw [if_pos (endsFlow_iff.2 hstops), Except.ok.injEq]
        constructor
        · intro h
          refine ⟨[i], is, rfl, .last hstops, ?_⟩
          rw [← h, extent_cons]
          rfl
        · intro h
          obtain ⟨front, back, hsplit, hrun, rfl⟩ := h
          cases hrun with
          | last _ =>
              obtain rfl := (List.cons.inj hsplit).1
              rw [extent_cons]
              rfl
          | next hgoes _ =>
              rw [(List.cons.inj hsplit).1] at hstops
              exact absurd hstops hgoes
      · rw [if_neg fun h => hstops (endsFlow_iff.1 h), ih]
        constructor
        · intro h
          obtain ⟨front, back, rfl, hrun, rfl⟩ := h
          refine ⟨i :: front, back, rfl, .next hstops hrun, ?_⟩
          rw [extent_cons, Nat.add_assoc]
        · intro h
          obtain ⟨front, back, hsplit, hrun, rfl⟩ := h
          cases hrun with
          | last hlast =>
              rw [(List.cons.inj hsplit).1] at hstops
              exact absurd hlast hstops
          | @next j front _ hrun =>
              obtain ⟨rfl, rfl⟩ := List.cons.inj hsplit
              refine ⟨front, back, rfl, hrun, ?_⟩
              rw [extent_cons, Nat.add_assoc]

/-- Without such an instruction, the error is that of the word that ends the listing. -/
theorem Lists.endOfFlow_of_forall (h : Lists code offset is tail)
    (hgoes : ∀ i ∈ is, ¬ i.StopsFlow) :
    endOfFlow code offset = .error (missing ⟨tail, offset + extent is, []⟩) := by
  induction h with
  | stop h => exact endOfFlow_of_error (decode_eq_error.2 ⟨h, rfl⟩)
  | @next i is rest tail hi _ ih =>
      rw [List.forall_mem_cons] at hgoes
      rw [endOfFlow_of_ok (hi rest i.offset), ← length_bytes, List.drop_left, length_bytes,
        if_neg fun h => hgoes.1 (endsFlow_iff.1 h), ih hgoes.2, extent_cons, Nat.add_assoc]

theorem Run.exists_mem (h : Run is) : ∃ i ∈ is, i.StopsFlow := by
  induction h with
  | last h => exact ⟨_, List.mem_cons_self, h⟩
  | next _ _ ih =>
      obtain ⟨i, hi, hstops⟩ := ih
      exact ⟨i, List.mem_cons_of_mem _ hi, hstops⟩

theorem Run.extent_pos (h : Run is) : 0 < extent is := by
  cases h with
  | last _ | next _ _ =>
      rw [extent_cons, byteLength]
      omega

/-- **Instructions start with a run exactly if one of them stops the flow.** -/
theorem exists_run_iff :
    (∃ front back, is = front ++ back ∧ Run front) ↔ ∃ i ∈ is, i.StopsFlow := by
  constructor
  · intro h
    obtain ⟨front, back, rfl, hrun⟩ := h
    obtain ⟨i, hi, hstops⟩ := hrun.exists_mem
    exact ⟨i, List.mem_append_left back hi, hstops⟩
  · intro h
    induction is with
    | nil =>
        obtain ⟨i, hi, -⟩ := h
        cases hi
    | cons i is ih =>
        by_cases hstops : i.StopsFlow
        · exact ⟨[i], is, rfl, .last hstops⟩
        · obtain ⟨j, hj, hlast⟩ := h
          rcases List.mem_cons.1 hj with rfl | hj
          · exact absurd hlast hstops
          · obtain ⟨front, back, rfl, hrun⟩ := ih ⟨j, hj, hlast⟩
            exact ⟨i :: front, back, rfl, .next hstops hrun⟩

theorem run_cons_iff : Run (i :: is) ↔ i.StopsFlow ∧ is = [] ∨ ¬ i.StopsFlow ∧ Run is := by
  constructor
  · intro h
    cases h with
    | last h => exact .inl ⟨h, rfl⟩
    | next hi h => exact .inr ⟨hi, h⟩
  · intro h
    rcases h with ⟨h, rfl⟩ | ⟨hi, h⟩
    · exact .last h
    · exact .next hi h

/-- Where a run ends does not depend on offsets. -/
theorem run_wrap_iff : Run (is.map wrap) ↔ Run is := by
  induction is with
  | nil => exact Iff.rfl
  | cons i is ih =>
      rw [List.map_cons, run_cons_iff, run_cons_iff, ih, List.map_eq_nil_iff]
      exact Iff.rfl

/-- The listed instructions stop the flow as those of the code do. -/
theorem exists_mem_disassemble_iff :
    (∃ i ∈ disassemble code base, i.StopsFlow) ↔ ∃ i ∈ listing code base, i.StopsFlow := by
  constructor
  · intro h
    obtain ⟨j, hj, hstops⟩ := h
    obtain ⟨i, hi, rfl⟩ := List.mem_map.1 hj
    exact ⟨i, hi, hstops⟩
  · intro h
    obtain ⟨i, hi, hstops⟩ := h
    exact ⟨i.wrap, List.mem_map_of_mem hi, hstops⟩

/-- The code from one offset up to another one. -/
def span (code : Bytes) (offset finish : Nat) : Bytes :=
  (code.drop offset).take (finish - offset)

/-- What it is for the code from one offset up to another one to be a run. -/
structure RunsTo (code : Bytes) (offset finish : Nat) : Prop where
  inside : finish ≤ code.length
  /-- The instructions cover the range, without a byte left. -/
  covered : bytesOf (disassemble (span code offset finish) offset) = span code offset finish
  /-- They are those of the code from the offset on. -/
  front : disassemble (span code offset finish) offset <+: disassemble (code.drop offset) offset
  /-- The last one stops the flow, and no other one does. -/
  run : Run (disassemble (span code offset finish) offset)

/-- **A run goes from its offset to the end of the first instruction that stops the flow.** -/
theorem runUntilReturn_iff {range : Nat × Nat} :
    runUntilReturn code offset = .ok range ↔
      range.1 = offset ∧ RunsTo code offset range.2 := by
  obtain ⟨start, finish⟩ := range
  obtain ⟨tail, h⟩ := exists_lists (code.drop offset) offset
  rw [runUntilReturn, map_eq_ok]
  constructor
  · intro hok
    obtain ⟨finish, hfinish, heq⟩ := hok
    obtain ⟨rfl, rfl⟩ := Prod.mk.inj heq
    obtain ⟨front, back, hsplit, hrun, rfl⟩ := h.endOfFlow_eq_ok.1 hfinish
    rw [hsplit] at h
    have hbytes : code.drop offset = bytesOf front ++ (bytesOf back ++ tail) := by
      rw [h.bytes, bytesOf_append, List.append_assoc]
    have hspan : span code offset (offset + extent front) = bytesOf front := by
      rw [span, Nat.add_sub_cancel_left, hbytes, extent, List.take_left]
    have hlisted : disassemble (bytesOf front) offset = front.map wrap := by
      rw [disassemble, ← h.take.eq_listing]
    have hinside : offset + extent front ≤ code.length := by
      have hlength := congrArg List.length hbytes
      have hpos := hrun.extent_pos
      rw [List.length_drop, List.length_append] at hlength
      unfold extent at hpos ⊢
      omega
    refine ⟨rfl, hinside, ?_, ?_, ?_⟩
    · rw [hspan, hlisted, bytesOf_wrap]
    · rw [hspan, hlisted, disassemble, hsplit, List.map_append]
      exact List.prefix_append _ _
    · rw [hspan, hlisted]
      exact run_wrap_iff.2 hrun
  · intro hruns
    obtain ⟨rfl, hinside, hcovered, -, hrun⟩ := hruns
    dsimp only at hinside hcovered hrun ⊢
    -- the listing of the span is a front of the listing, as more code behind it changes nothing
    obtain ⟨rest, hfront⟩ := exists_lists (span code start finish) start
    have hspan : span code start finish ++ (code.drop start).drop (finish - start)
        = code.drop start := List.take_append_drop _ _
    have hback := hfront.listing_append ((code.drop start).drop (finish - start))
    rw [hspan] at hback
    refine ⟨finish, h.endOfFlow_eq_ok.2 ⟨_, _, hback, run_wrap_iff.1 hrun, ?_⟩, rfl⟩
    have hpos := hrun.extent_pos
    rw [disassemble, extent_wrap] at hpos
    rw [disassemble, bytesOf_wrap] at hcovered
    unfold extent at hpos ⊢
    rw [hcovered, span, List.length_take, List.length_drop] at hpos ⊢
    omega

/-- **There is a run exactly if a listed instruction stops the flow.** -/
theorem exists_runUntilReturn_iff :
    (∃ range, runUntilReturn code offset = .ok range) ↔
      ∃ i ∈ disassemble (code.drop offset) offset, i.StopsFlow := by
  obtain ⟨tail, h⟩ := exists_lists (code.drop offset) offset
  rw [exists_mem_disassemble_iff, ← exists_run_iff]
  constructor
  · intro hok
    obtain ⟨range, hrange⟩ := hok
    obtain ⟨finish, hfinish, -⟩ := map_eq_ok.1 hrange
    obtain ⟨front, back, hsplit, hrun, -⟩ := h.endOfFlow_eq_ok.1 hfinish
    exact ⟨front, back, hsplit, hrun⟩
  · intro hstarts
    obtain ⟨front, back, hsplit, hrun⟩ := hstarts
    have hfinish := h.endOfFlow_eq_ok.2 ⟨front, back, hsplit, hrun, rfl⟩
    exact ⟨_, map_eq_ok.2 ⟨_, hfinish, rfl⟩⟩

/-- The offset at which the listing from an offset on ends. -/
def endOfListing (code : Bytes) (offset : Nat) : Nat :=
  offset + extent (disassemble (code.drop offset) offset)

/-- **There is no run exactly if no listed instruction stops the flow**, and the error is that of
    the first word that is missing behind the listing. -/
theorem runUntilReturn_eq_error {e : Error} :
    runUntilReturn code offset = .error e ↔
      (∀ i ∈ disassemble (code.drop offset) offset, ¬ i.StopsFlow) ∧
        e = missing (.start code (endOfListing code offset)) := by
  obtain ⟨tail, h⟩ := exists_lists (code.drop offset) offset
  have htail : code.drop (endOfListing code offset) = tail := by
    have hdrop := congrArg (List.drop (extent (listing (code.drop offset) offset))) h.bytes
    rw [List.drop_drop] at hdrop
    rw [endOfListing, disassemble, extent_wrap]
    exact hdrop.trans List.drop_left
  by_cases hstops : ∃ i ∈ disassemble (code.drop offset) offset, i.StopsFlow
  · obtain ⟨range, hrange⟩ := exists_runUntilReturn_iff.2 hstops
    rw [hrange]
    refine iff_of_false (fun h => by cases h) fun hnone => ?_
    obtain ⟨i, hi, hstop⟩ := hstops
    exact hnone.1 i hi hstop
  · have hnone : ∀ i ∈ disassemble (code.drop offset) offset, ¬ i.StopsFlow :=
      fun i hi hstop => hstops ⟨i, hi, hstop⟩
    have herror : runUntilReturn code offset
        = .error (missing (.start code (endOfListing code offset))) := by
      have hgoes : ∀ i ∈ listing (code.drop offset) offset, ¬ i.StopsFlow :=
        fun i hi hstop => hstops (exists_mem_disassemble_iff.2 ⟨i, hi, hstop⟩)
      rw [runUntilReturn, h.endOfFlow_of_forall hgoes, start, htail, endOfListing, disassemble,
        extent_wrap]
      rfl
    rw [herror, Except.error.injEq]
    exact ⟨fun h => ⟨hnone, h.symm⟩, fun h => h.2.symm⟩

/-- **Runs agree with listings.** There is a run exactly if an instruction that is listed from its
    offset on stops the flow. It goes to the end of the first such instruction, and its bytes are
    listed as the front of that listing that ends there. Otherwise the code is truncated behind the
    listing, where a word is missing. -/
theorem runUntilReturn_agrees (code : Bytes) (offset : Nat) :
    ((∃ range, runUntilReturn code offset = .ok range) ↔
        ∃ i ∈ disassemble (code.drop offset) offset, i.StopsFlow) ∧
      (∀ range, runUntilReturn code offset = .ok range ↔
        range.1 = offset ∧ RunsTo code offset range.2) ∧
      ∀ e, runUntilReturn code offset = .error e ↔
        (∀ i ∈ disassemble (code.drop offset) offset, ¬ i.StopsFlow) ∧
          e = .truncated (endOfListing code offset
              + 2 * ((code.drop (endOfListing code offset)).length / 2)) 2
            ((code.drop (endOfListing code offset)).length % 2) :=
  ⟨exists_runUntilReturn_iff, fun _ => runUntilReturn_iff, fun _ => runUntilReturn_eq_error⟩

end AmigaBinary.M68k
