import AmigaBinary.Text.Hexadecimal

/-!
# Quoted names

Names are quoted in messages, because they may hold any ISO-8859-1 character. A quote and a
backslash get a backslash, NUL, tab, newline and carriage return have a letter of their own, and
a character that does not print is given by its number.
-/

namespace AmigaBinary.Text

/-- ISO-8859-1 characters that do not print: the two control ranges, the no-break space and the
    soft hyphen. -/
def isUnprintable (c : Char) : Bool :=
  c.toNat < 0x20 || (0x7F ≤ c.toNat && c.toNat ≤ 0xA0) || c.toNat == 0xAD

/-- A character inside quotes. -/
def quoteChar (c : Char) : String :=
  if c = '"' then "\\\""
  else if c = '\\' then "\\\\"
  else if c = '\x00' then "\\0"
  else if c = '\t' then "\\t"
  else if c = '\n' then "\\n"
  else if c = '\r' then "\\r"
  else if isUnprintable c then "\\u\x7b" ++ hex c.toNat ++ "\x7d"
  else String.singleton c

/-- A name between quotes. -/
def quote (name : String) : String :=
  "\"" ++ String.join (name.toList.map quoteChar) ++ "\""

/-- A list of quoted names between brackets. -/
def quoteList (names : List String) : String :=
  "[" ++ String.intercalate ", " (names.map quote) ++ "]"

end AmigaBinary.Text
