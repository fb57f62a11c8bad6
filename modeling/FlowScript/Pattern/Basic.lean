import FlowScript.Text.Blank
import FlowScript.Text.Lines

/-!
# Patterns

A pattern is the code template of a function. It yields a value, stands on lines of its own, or is a
block. A block whose last line ends in a colon opens a scope for the lines after it.
-/

namespace FlowScript

/-- How the text of a pattern becomes part of a program. -/
inductive PatternKind where
  | expression
  | statement
  | block
deriving DecidableEq, Repr

/-- A code template with the import lines that it needs. -/
structure Pattern where
  text : String
  kind : PatternKind
  imports : List String
deriving DecidableEq, Repr

/-- The last line of a text that is not blank. -/
def lastLine? (text : String) : Option String :=
  (Text.lines text).reverse.find? fun l => !Text.isBlankText l

/-- Whether the lines after a pattern belong to a scope that it opens. -/
def Pattern.opensScope (p : Pattern) : Bool :=
  p.kind == .block &&
    (lastLine? p.text).any fun l => (Text.trimEnd l).toList.getLast? == some ':'

end FlowScript
