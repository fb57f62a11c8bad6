import FlowScript.Text.Blank

/-!
# Words, labels and names

Case and character classes are those of ASCII throughout: every other character is neither a letter
nor a digit, and has no other case.
-/

namespace FlowScript.Text

/-- Replace the capital letters `A` to `Z` by small ones. -/
def lower (s : String) : String :=
  String.ofList (s.toList.map Char.toLower)

/-- Cut at every character that is no letter or digit; `word` holds the current word in reverse. -/
def cutWords (word : List Char) : List Char → List (List Char)
  | [] => if word.isEmpty then [] else [word.reverse]
  | c :: rest =>
    if c.isAlphanum then cutWords (c :: word) rest
    else if word.isEmpty then cutWords [] rest
    else word.reverse :: cutWords [] rest

/-- The runs of letters and digits of a text, in small letters. -/
def words (s : String) : List String :=
  (cutWords [] s.toList).map fun w => String.ofList (w.map Char.toLower)

/-- The runs of letters and digits of a text, joined by one underscore each. -/
def snake (s : String) : String :=
  String.intercalate "_" ((cutWords [] s.toList).map String.ofList)

/-- A blank or hyphen inside a label counts as an underscore. -/
def joinLabel (c : Char) : Char :=
  if c = ' ' ∨ c = '-' then '_' else c

/-- The form in which labels are compared: trimmed, in small letters, joined by underscores. -/
def labelForm (s : String) : String :=
  String.ofList ((lower (trim s)).toList.map joinLabel)

/-- Whether a label is one of the given names. -/
def labelIn (names : List String) (label : String) : Bool :=
  names.contains (labelForm label)

/-- Whether a text starts with a decimal digit. -/
def startsWithDigit (s : String) : Bool :=
  match s.toList with
  | c :: _ => c.isDigit
  | [] => false

end FlowScript.Text
