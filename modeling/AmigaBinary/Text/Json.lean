import AmigaBinary.Text.Hexadecimal

/-!
# JSON

Reports and listings are written as JSON, either on one line or indented by two spaces a level.
Fields keep their order. Characters outside ASCII are written as they are.
-/

namespace AmigaBinary.Text

/-- A JSON value. Numbers are integers, and an object is a list of fields in order. -/
inductive Json where
  | null
  | bool (value : Bool)
  | number (value : Int)
  | string (value : String)
  | array (items : List Json)
  | object (fields : List (String × Json))

namespace Json

/-! ## 1. Strings -/

/-- A character inside a JSON string. -/
def escapeChar (c : Char) : String :=
  if c = '"' then "\\\""
  else if c = '\\' then "\\\\"
  else if c = '\x08' then "\\b"
  else if c = '\t' then "\\t"
  else if c = '\n' then "\\n"
  else if c = '\x0c' then "\\f"
  else if c = '\r' then "\\r"
  else if c.toNat < 0x20 then "\\u" ++ hexFixed 4 c.toNat
  else String.singleton c

/-- A JSON string. -/
def quoted (value : String) : String :=
  "\"" ++ String.join (value.toList.map escapeChar) ++ "\""

/-! ## 2. One line

Values are written behind the text so far. -/

mutual

/-- A text, and behind it a value on one line, without spaces. -/
def addCompact (text : String) : Json → String
  | null => text ++ "null"
  | bool true => text ++ "true"
  | bool false => text ++ "false"
  | number value => text ++ toString value
  | string value => text ++ quoted value
  | array items => addItems (text ++ "[") items ++ "]"
  | object fields => addFields (text ++ "\x7b") fields ++ "\x7d"

/-- A text, and behind it the items of an array between commas. -/
def addItems (text : String) : List Json → String
  | [] => text
  | [item] => addCompact text item
  | item :: rest => addItems (addCompact text item ++ ",") rest

/-- A text, and behind it the fields of an object between commas. -/
def addFields (text : String) : List (String × Json) → String
  | [] => text
  | [(name, value)] => addCompact (text ++ quoted name ++ ":") value
  | (name, value) :: rest => addFields (addCompact (text ++ quoted name ++ ":") value ++ ",") rest

end

/-- A value on one line. -/
def compact (value : Json) : String :=
  addCompact "" value

/-! ## 3. Indented -/

/-- A line break in front of a line that is indented by so many levels. -/
def newline (level : Nat) : String :=
  "\n" ++ String.ofList (List.replicate (2 * level) ' ')

mutual

/-- A text, and behind it a value at the given level, an item or field on each line. -/
def addPretty (level : Nat) (text : String) : Json → String
  | null => text ++ "null"
  | bool true => text ++ "true"
  | bool false => text ++ "false"
  | number value => text ++ toString value
  | string value => text ++ quoted value
  | array [] => text ++ "[]"
  | array (item :: rest) =>
      let first := addPretty (level + 1) (text ++ "[" ++ newline (level + 1)) item
      addPrettyItems (level + 1) first rest ++ newline level ++ "]"
  | object [] => text ++ "\x7b\x7d"
  | object ((name, value) :: rest) =>
      let start := text ++ "\x7b" ++ newline (level + 1) ++ quoted name ++ ": "
      addPrettyFields (level + 1) (addPretty (level + 1) start value) rest
        ++ newline level ++ "\x7d"

/-- A text, and behind it the items behind the first one of an array. -/
def addPrettyItems (level : Nat) (text : String) : List Json → String
  | [] => text
  | item :: rest => addPrettyItems level (addPretty level (text ++ "," ++ newline level) item) rest

/-- A text, and behind it the fields behind the first one of an object. -/
def addPrettyFields (level : Nat) (text : String) : List (String × Json) → String
  | [] => text
  | (name, value) :: rest =>
      let start := text ++ "," ++ newline level ++ quoted name ++ ": "
      addPrettyFields level (addPretty level start value) rest

end

/-- A value on indented lines. -/
def pretty (value : Json) : String :=
  addPretty 0 "" value

/-! ## 4. Building values -/

/-- A value that may be missing. -/
def ofOption {α : Type} (toJson : α → Json) : Option α → Json
  | some value => toJson value
  | none => null

/-- A list of values. -/
def ofList {α : Type} (toJson : α → Json) (values : List α) : Json :=
  array (values.map toJson)

/-- A natural number. -/
def nat (n : Nat) : Json :=
  number n

end Json

end AmigaBinary.Text
