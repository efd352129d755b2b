/-!
# Command lines

A command line has a command and its files, and options before and behind the command. An option
is a long name behind two dashes or a letter behind one; letters may share a dash, and a value
follows its option or is attached to it.
-/

namespace AmigaBinary.CommandLine

/-! ## 1. Options -/

/-- An option without a value. -/
inductive Switch where
  | verbose
  | quiet
  | noUnpack
  | untilReturn
  | firstHunk
  deriving DecidableEq, Repr

/-- The option with a long name. -/
def Switch.ofName? : String → Option Switch
  | "verbose" => some .verbose
  | "quiet" => some .quiet
  | "no-unpack" => some .noUnpack
  | "until-return" => some .untilReturn
  | "hunk" => some .firstHunk
  | _ => none

/-- The option with a letter. -/
def Switch.ofLetter? : Char → Option Switch
  | 'v' => some .verbose
  | 'q' => some .quiet
  | _ => none

/-- An option with a value. -/
inductive Setting where
  | format
  | offset
  | length
  | output
  | extension
  deriving DecidableEq, Repr

/-- The option with a long name. -/
def Setting.ofName? : String → Option Setting
  | "format" => some .format
  | "offset" => some .offset
  | "length" => some .length
  | "output" => some .output
  | "extension" => some .extension
  | _ => none

/-- The option with a letter. -/
def Setting.ofLetter? : Char → Option Setting
  | 'f' => some .format
  | 'o' => some .output
  | _ => none

/-- A piece of a command line. -/
inductive Item where
  | word (text : String)
  | switch (switch : Switch)
  | setting (setting : Setting) (value : String)
  deriving DecidableEq, Repr

/-- What is wrong with a command line. -/
inductive UsageFault where
  | unknownOption (text : String)
  | missingValue
  | badValue (text : String)
  | repeatedOption
  | misplacedOption
  | missingCommand
  | unknownCommand (text : String)
  | wrongFileCount
  deriving DecidableEq, Repr

/-- The wording of a fault. -/
def UsageFault.message : UsageFault → String
  | .unknownOption text => "unexpected argument '" ++ text ++ "'"
  | .missingValue => "an option needs a value"
  | .badValue text => "invalid value '" ++ text ++ "'"
  | .repeatedOption => "an option is given twice"
  | .misplacedOption => "an option does not belong to the command"
  | .missingCommand => "a command is needed"
  | .unknownCommand text => "unrecognized command '" ++ text ++ "'"
  | .wrongFileCount => "the number of files does not fit the command"

/-! ## 2. Pieces -/

/-- The options in an argument, and the one whose value is the next argument. -/
abbrev Found := List Item × Option Setting

/-- The option with a long name, to which a value may be attached by an equals sign. -/
def longOption (text : List Char) : Except UsageFault Found :=
  let name := String.ofList (text.takeWhile (· ≠ '='))
  match Switch.ofName? name, Setting.ofName? name, text.dropWhile (· ≠ '=') with
  | some switch, _, [] => .ok ([.switch switch], none)
  | none, some setting, [] => .ok ([], some setting)
  | none, some setting, _ :: value => .ok ([.setting setting (String.ofList value)], none)
  | _, _, _ => .error (.unknownOption ("--" ++ String.ofList text))

/-- The options with letters behind one dash. What is behind the letter of an option with a value
    is the value. -/
def shortOptions : List Char → Except UsageFault Found
  | [] => .ok ([], none)
  | letter :: text =>
    match Switch.ofLetter? letter, Setting.ofLetter? letter, text with
    | some switch, _, text =>
        (shortOptions text).map fun found => (.switch switch :: found.1, found.2)
    | none, some setting, [] => .ok ([], some setting)
    | none, some setting, '=' :: value => .ok ([.setting setting (String.ofList value)], none)
    | none, some setting, value => .ok ([.setting setting (String.ofList value)], none)
    | none, none, _ => .error (.unknownOption ("-" ++ String.ofList (letter :: text)))

/-- The pieces in an argument. -/
def piecesOf (argument : String) : Except UsageFault Found :=
  match argument.toList with
  | '-' :: '-' :: text => longOption text
  | '-' :: letter :: text => shortOptions (letter :: text)
  | _ => .ok ([.word argument], none)

/-- Whether an argument can be a value: a dash alone or something without a dash in front. -/
def isValue (argument : String) : Bool :=
  match argument.toList with
  | '-' :: _ :: _ => false
  | _ => true

/-- The pieces of a command line; `pending` is the option whose value comes next. Two dashes alone
    end the options. -/
def pieces : Option Setting → List String → Except UsageFault (List Item)
  | none, [] => .ok []
  | some _, [] => .error .missingValue
  | some setting, argument :: rest =>
    if isValue argument then (pieces none rest).map (.setting setting argument :: ·)
    else .error .missingValue
  | none, argument :: rest =>
    if argument = "--" then .ok (rest.map .word)
    else do
      let (found, pending) ← piecesOf argument
      let more ← pieces pending rest
      .ok (found ++ more)

/-! ## 3. Looking up -/

/-- The words among pieces. -/
def wordsOf (items : List Item) : List String :=
  items.filterMap fun
    | .word text => some text
    | _ => none

/-- Whether an option is among pieces. -/
def hasSwitch (switch : Switch) (items : List Item) : Bool :=
  items.contains (.switch switch)

/-- The value of an option among pieces. -/
def valueOf? (setting : Setting) (items : List Item) : Option String :=
  items.findSome? fun
    | .setting other value => if other = setting then some value else none
    | _ => none

/-- The options of pieces without their values. -/
def optionsOf (items : List Item) : List (Switch ⊕ Setting) :=
  items.filterMap fun
    | .word _ => none
    | .switch switch => some (.inl switch)
    | .setting setting _ => some (.inr setting)

/-- A number that fits 64 bits. A plus sign may stand in front of it. -/
def number? (text : String) : Option Nat :=
  let digits := match text.toList with
    | '+' :: digits => digits
    | digits => digits
  if digits.isEmpty || !digits.all Char.isDigit then none
  else
    let n := digits.foldl (fun n digit => 10 * n + (digit.toNat - '0'.toNat)) 0
    if n < 0x10000000000000000 then some n else none

end AmigaBinary.CommandLine
