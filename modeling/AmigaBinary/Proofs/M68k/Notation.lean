import AmigaBinary.Proofs.M68k.RegisterLists
import AmigaBinary.Proofs.Words

/-!
# The notation of operands

Numbers, index registers and register lists are written in one way each. The text of an operand is
made of parts between commas (`Operand.text_eq`), none of which has a comma in it
(`Operand.lacks_comma`), so that the operands of an instruction can be told apart by the number of
their parts (`operandTexts_inj`).
-/

namespace AmigaBinary.M68k

open Text (Lacks lacks_append lacks_ofList not_mem_toDigits)

variable {c : Char}

/-! ## 1. Numbers -/

theorem lacks_hex {n : Nat} (hdigit : ∀ d, Nat.digitChar d ≠ c) : Lacks (Text.hex n) c :=
  lacks_ofList.2 (not_mem_toDigits (by decide) hdigit)

theorem lacks_toString {n : Nat} (hdigit : ∀ d, Nat.digitChar d ≠ c) : Lacks (toString n) c := by
  rw [Nat.toString_eq_ofList_toDigits]
  exact lacks_ofList.2 (not_mem_toDigits (by decide) hdigit)

theorem toString_inj {m n : Nat} (h : toString m = toString n) : m = n := by
  rw [Nat.toString_eq_ofList_toDigits, Nat.toString_eq_ofList_toDigits] at h
  exact Text.toDigits_inj (by decide) (by decide) (String.ofList_injective h)

/-- An integer in decimal: the sign, if it is negative, and its absolute value. -/
theorem toString_eq (v : Int) :
    toString v = if v < 0 then "-" ++ toString v.natAbs else "" ++ toString v.natAbs := by
  rw [Int.toString_eq_repr, Int.repr_eq_if]
  split
  · rename_i h
    rw [if_neg (Int.not_lt.2 h), String.empty_append, Nat.toString_eq_repr]
    congr 1
    omega
  · rename_i h
    rw [if_pos (Int.not_le.1 h), Nat.toString_eq_repr]
    congr 2
    omega

/-- **A number with a sign is written in one way** if the number without it is, and has no sign in
    it. -/
theorem signed_inj {neg pos : String} {num : Nat → String} {v w : Int}
    (hnum : ∀ m n, num m = num n → m = n) (hneg : ¬ Lacks neg '-')
    (hpos : ∀ n, Lacks (pos ++ num n) '-')
    (h : (if v < 0 then neg ++ num v.natAbs else pos ++ num v.natAbs)
      = if w < 0 then neg ++ num w.natAbs else pos ++ num w.natAbs) : v = w := by
  have hsigns : ∀ m n, neg ++ num m ≠ pos ++ num n := fun m n h => hneg (by
    have hlacks := hpos n
    rw [← h] at hlacks
    exact (lacks_append.1 hlacks).1)
  split at h <;> split at h
  · have habs := hnum _ _ ((String.append_right_inj _).1 h)
    omega
  · exact absurd h (hsigns _ _)
  · exact absurd h.symm (hsigns _ _)
  · have habs := hnum _ _ ((String.append_right_inj _).1 h)
    omega

theorem signedHex_inj {v w : Int} : signedHex v = signedHex w ↔ v = w := by
  constructor
  · exact signed_inj (fun _ _ => Text.hex_inj.1) (by decide) fun _ =>
      lacks_append.2 ⟨by decide, lacks_hex fun _ => Nat.digitChar_ne '-' (by decide)⟩
  · rintro rfl
    rfl

theorem decimal_inj {v w : Int} (h : toString v = toString w) : v = w := by
  rw [toString_eq, toString_eq] at h
  exact signed_inj (fun _ _ => toString_inj) (by decide) (fun _ =>
    lacks_append.2 ⟨by decide, lacks_toString fun _ => Nat.digitChar_ne '-' (by decide)⟩) h

theorem lacks_decimal {v : Int} (hdigit : ∀ d, Nat.digitChar d ≠ c) (hsign : Lacks "-" c) :
    Lacks (toString v) c := by
  rw [toString_eq]
  split
  · exact lacks_append.2 ⟨hsign, lacks_toString hdigit⟩
  · exact lacks_append.2 ⟨by simp [Lacks], lacks_toString hdigit⟩

/-- A decimal number is not a hexadecimal one: there is no dollar sign in it. -/
theorem toString_ne_signedHex (v w : Int) : toString v ≠ signedHex w := by
  intro h
  have hlacks : Lacks (toString v) '$' :=
    lacks_decimal (fun _ => Nat.digitChar_ne '$' (by decide)) (by decide)
  have hdollar : ¬ Lacks (signedHex w) '$' := by
    unfold signedHex
    split <;> exact fun h => absurd (lacks_append.1 h).1 (by decide)
  rw [h] at hlacks
  exact hdollar hlacks

/-- **Immediate data is written in one way**, in decimal or in hexadecimal. -/
theorem immediateText_inj {v w : Int} : immediateText v = immediateText w ↔ v = w := by
  constructor
  · intro h
    unfold immediateText at h
    split at h <;> split at h
    · exact decimal_inj ((String.append_right_inj _).1 h)
    · exact absurd ((String.append_right_inj _).1 h) (toString_ne_signedHex _ _)
    · exact absurd ((String.append_right_inj _).1 h).symm (toString_ne_signedHex _ _)
    · exact signedHex_inj.1 ((String.append_right_inj _).1 h)
  · rintro rfl
    rfl

/-! ## 2. Index registers -/

theorem toList_indexText {index : IndexRegister} (h : index.reg < 8) :
    index.text.toList = (if index.isAddress then 'A' else 'D') :: Nat.digitChar index.reg ::
      if index.isLong then ['.', 'L'] else [] := by
  have hlong : ".L".toList = ['.', 'L'] := by decide
  rw [IndexRegister.text, String.toList_append, toList_registerName (by omega)]
  cases index.isLong
  · rfl
  · show _ ++ ".L".toList = _
    rw [hlong]
    rfl

/-- **An index register is written in one way.** -/
theorem indexText_inj {i j : IndexRegister} (hi : i.reg < 8) (hj : j.reg < 8) :
    i.text = j.text ↔ i = j := by
  constructor
  · intro h
    have hlist := congrArg String.toList h
    rw [toList_indexText hi, toList_indexText hj] at hlist
    obtain ⟨hbank, hrest⟩ := List.cons.inj hlist
    obtain ⟨hdigit, hlong⟩ := List.cons.inj hrest
    have hreg := Text.digitChar_inj (by omega) (by omega) hdigit
    have haddress : i.isAddress = j.isAddress := by
      revert hbank
      cases i.isAddress <;> cases j.isAddress <;> decide
    have hsize : i.isLong = j.isLong := by
      revert hlong
      cases i.isLong <;> cases j.isLong <;> decide
    cases i
    cases j
    exact IndexRegister.mk.injEq .. ▸ ⟨haddress, hreg, hsize⟩
  · rintro rfl
    rfl

/-! ## 3. Parts of operands -/

/-- The parts of an effective address between commas. -/
def EffectiveAddress.parts : EffectiveAddress → List String
  | .displaced reg displacement => ["(" ++ signedHex displacement, registerName 'A' reg ++ ")"]
  | .indexed reg displacement index =>
      ["(" ++ signedHex displacement, registerName 'A' reg, index.text ++ ")"]
  | .pcDisplaced displacement => ["(" ++ signedHex displacement, "PC)"]
  | .pcIndexed displacement index => ["(" ++ signedHex displacement, "PC", index.text ++ ")"]
  | ea => [ea.text]

/-- The parts of an operand between commas. -/
def Operand.parts : Operand → List String
  | .address ea => ea.parts
  | operand => [operand.text]

theorem Operand.parts_ne_nil (operand : Operand) : operand.parts ≠ [] := by
  cases operand with
  | address ea => cases ea <;> exact List.cons_ne_nil _ _
  | _ => exact List.cons_ne_nil _ _

/-- **The text of an operand is made of its parts.** -/
theorem Operand.text_eq (operand : Operand) :
    operand.text = String.intercalate "," operand.parts := by
  cases operand with
  | address ea =>
      cases ea with
      | displaced reg displacement =>
          simp only [text, EffectiveAddress.text, parts, EffectiveAddress.parts,
            String.intercalate_cons_cons, String.intercalate_singleton, String.append_assoc]
      | indexed reg displacement index =>
          simp only [text, EffectiveAddress.text, parts, EffectiveAddress.parts,
            String.intercalate_cons_cons, String.intercalate_singleton, String.append_assoc]
      | pcDisplaced displacement =>
          have hpc : ",PC)" = "," ++ "PC)" := by decide
          simp only [text, EffectiveAddress.text, parts, EffectiveAddress.parts,
            String.intercalate_cons_cons, String.intercalate_singleton, String.append_assoc, hpc]
      | pcIndexed displacement index =>
          have hpc : ",PC," = "," ++ ("PC" ++ ",") := by decide
          simp only [text, EffectiveAddress.text, parts, EffectiveAddress.parts,
            String.intercalate_cons_cons, String.intercalate_singleton, String.append_assoc, hpc]
      | _ => exact String.intercalate_singleton.symm
  | _ => exact String.intercalate_singleton.symm

/-! ## 4. Commas -/

theorem digitChar_ne_comma (d : Nat) : Nat.digitChar d ≠ ',' :=
  Nat.digitChar_ne ',' (by decide)

@[simp] theorem lacks_comma_hex (n : Nat) : Lacks (Text.hex n) ',' :=
  lacks_hex digitChar_ne_comma

@[simp] theorem lacks_comma_repr (n : Nat) : Lacks n.repr ',' := by
  rw [← Nat.toString_eq_repr]
  exact lacks_toString digitChar_ne_comma

@[simp] theorem lacks_comma_intRepr (v : Int) : Lacks v.repr ',' := by
  rw [← Int.toString_eq_repr]
  exact lacks_decimal digitChar_ne_comma (by decide)

@[simp] theorem lacks_comma_signedHex (v : Int) : Lacks (signedHex v) ',' := by
  unfold signedHex
  split <;> simp +decide

@[simp] theorem lacks_comma_immediateText (v : Int) : Lacks (immediateText v) ',' := by
  unfold immediateText
  split <;> simp +decide

@[simp] theorem lacks_comma_registerName {bank : Char} (reg : Nat) :
    Lacks (registerName bank reg) ',' ↔ ',' ≠ bank := by
  simp [registerName]

@[simp] theorem lacks_comma_indexText (index : IndexRegister) : Lacks index.text ',' := by
  unfold IndexRegister.text
  cases index.isAddress <;> cases index.isLong <;> simp +decide

@[simp] theorem lacks_comma_registerListText (mask : UInt16) :
    Lacks (registerListText mask) ',' := by
  rw [registerListText_eq]
  exact Text.lacks_intercalate (by decide)
    (lacks_listEntries (by decide) (by decide) (by decide) digitChar_ne_comma (by decide))

/-- **There is no comma in a part of an operand.** -/
theorem Operand.lacks_comma (operand : Operand) : ∀ part ∈ operand.parts, Lacks part ',' := by
  cases operand with
  | address ea => cases ea <;> simp +decide [parts, EffectiveAddress.parts, EffectiveAddress.text]
  | _ => simp +decide [parts, text]

/-! ## 5. Operands of an instruction -/

theorem flatMap_parts_ne_nil (operand : Operand) (operands : List Operand) :
    (operand :: operands).flatMap Operand.parts ≠ [] := fun h =>
  operand.parts_ne_nil (List.flatMap_eq_nil_iff.1 h operand (List.mem_cons_self ..))

/-- The parts of operands, between commas. -/
theorem intercalate_operandTexts (operands : List Operand) :
    String.intercalate "," (operands.map Operand.text)
      = String.intercalate "," (operands.flatMap Operand.parts) := by
  induction operands with
  | nil => rfl
  | cons operand operands ih =>
      cases operands with
      | nil =>
          rw [List.map_singleton, List.flatMap_singleton, String.intercalate_singleton,
            Operand.text_eq]
      | cons next operands =>
          rw [List.map_cons, List.flatMap_cons,
            String.intercalate_append_of_ne_nil operand.parts_ne_nil (flatMap_parts_ne_nil _ _),
            ← ih, ← Operand.text_eq]
          exact String.intercalate_cons_cons

/-- **Operands with as many parts are told from their text.** -/
theorem operandTexts_inj {operands others : List Operand}
    (hlen : operands.map (fun operand => operand.parts.length)
      = others.map fun operand => operand.parts.length) :
    String.intercalate "," (operands.map Operand.text)
        = String.intercalate "," (others.map Operand.text)
      ↔ operands.map Operand.parts = others.map Operand.parts := by
  constructor
  · intro h
    cases operands with
    | nil => rw [List.map_eq_nil_iff.1 hlen.symm]
    | cons operand operands =>
        obtain ⟨other, others, rfl⟩ : ∃ other rest, others = other :: rest :=
          List.exists_cons_of_ne_nil fun h => by simp [h] at hlen
        rw [intercalate_operandTexts, intercalate_operandTexts] at h
        have hcomma : ∀ (list : List Operand), ∀ part ∈ list.flatMap Operand.parts,
            Lacks part ',' := by
          intro list part hm
          obtain ⟨operand, -, hm⟩ := List.mem_flatMap.1 hm
          exact operand.lacks_comma part hm
        have hparts := Text.intercalate_inj (hcomma _) (hcomma _) (flatMap_parts_ne_nil _ _)
          (flatMap_parts_ne_nil _ _) h
        rw [List.flatMap_def, List.flatMap_def] at hparts
        refine List.eq_iff_flatten_eq.2 ⟨hparts, ?_⟩
        rwa [List.map_map, List.map_map]
  · intro h
    rw [intercalate_operandTexts, intercalate_operandTexts, List.flatMap_def, List.flatMap_def, h]

end AmigaBinary.M68k
