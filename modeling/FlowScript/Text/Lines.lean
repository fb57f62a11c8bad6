/-!
# Lines of a text

A line ends at a line feed, and one carriage return directly before that line feed belongs to the
line's end. A carriage return anywhere else is part of the line. Text after the last line feed is a
line only if it is not empty.
-/

namespace FlowScript.Text

/-- Take the carriage return off a line that is held in reverse. -/
def dropReturn : List Char → List Char
  | '\r' :: line => line
  | line => line

/-- Cut at line feeds; `line` holds the characters of the current line in reverse. -/
def cutLines (line : List Char) : List Char → List (List Char)
  | [] => if line.isEmpty then [] else [line.reverse]
  | c :: rest =>
    if c = '\n' then (dropReturn line).reverse :: cutLines [] rest
    else cutLines (c :: line) rest

/-- The lines of a text, without their ends. -/
def lines (s : String) : List String :=
  (cutLines [] s.toList).map String.ofList

end FlowScript.Text
