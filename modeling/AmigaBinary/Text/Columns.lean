/-!
# Columns

Text in a column is filled up with blanks, behind it or in front of it. Text that is wider than
its column is left as it is.
-/

namespace AmigaBinary.Text

/-- Blanks up to a width, for text that takes up the given part of it. -/
def blanks (width used : Nat) : String :=
  String.ofList (List.replicate (width - used) ' ')

/-- Text at the left edge of a column. -/
def alignLeft (width : Nat) (text : String) : String :=
  text ++ blanks width text.length

/-- Text at the right edge of a column. -/
def alignRight (width : Nat) (text : String) : String :=
  blanks width text.length ++ text

end AmigaBinary.Text
