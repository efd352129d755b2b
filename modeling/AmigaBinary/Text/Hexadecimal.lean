/-!
# Hexadecimal text

Numbers and byte strings written in base 16. Numbers have no leading zeros unless a width
is asked for; bytes always have two digits each, so the text of a byte string has twice its
length.
-/

namespace AmigaBinary.Text

/-! ## 1. Numbers -/

/-- A number in lower-case hexadecimal, without leading zeros. -/
def hex (n : Nat) : String :=
  String.ofList (Nat.toDigits 16 n)

/-- Zeros in front of `digits` until there are at least `width` of them. -/
def zeroFill (width : Nat) (digits : List Char) : List Char :=
  List.replicate (width - digits.length) '0' ++ digits

/-- A number in lower-case hexadecimal, with at least `width` digits. -/
def hexFixed (width n : Nat) : String :=
  String.ofList (zeroFill width (Nat.toDigits 16 n))

/-- A number in upper-case hexadecimal, with at least `width` digits. -/
def upperHexFixed (width n : Nat) : String :=
  String.ofList ((zeroFill width (Nat.toDigits 16 n)).map Char.toUpper)

/-! ## 2. Byte strings -/

/-- The two digits of a byte. -/
def hexByte (b : UInt8) : List Char :=
  [Nat.digitChar (b.toNat / 16), Nat.digitChar (b.toNat % 16)]

/-- A byte string in lower-case hexadecimal, two digits a byte. -/
def hexBytes (bytes : List UInt8) : String :=
  String.ofList (bytes.flatMap hexByte)

/-- The value of a hexadecimal digit of either case. -/
def hexDigit? (c : Char) : Option Nat :=
  if '0' ≤ c ∧ c ≤ '9' then some (c.toNat - '0'.toNat)
  else if 'a' ≤ c ∧ c ≤ 'f' then some (c.toNat - 'a'.toNat + 10)
  else if 'A' ≤ c ∧ c ≤ 'F' then some (c.toNat - 'A'.toNat + 10)
  else none

/-- The bytes that a list of hexadecimal digits spells, or `none` for an odd number of digits
    or a character that is no digit. -/
def bytesOfHexDigits? : List Char → Option (List UInt8)
  | [] => some []
  | high :: low :: rest => do
      let h ← hexDigit? high
      let l ← hexDigit? low
      let bytes ← bytesOfHexDigits? rest
      some (UInt8.ofNat (16 * h + l) :: bytes)
  | [_] => none

end AmigaBinary.Text
