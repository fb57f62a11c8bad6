import FlowScript.Listing.Basic

/-!
# Import lines

The import lines that the patterns of a program ask for: trimmed, each once, in the order in which
they are first asked for.
-/

namespace FlowScript.Imports

/-- Ask for an import line. -/
def add (imports : List String) (line : String) : List String :=
  let line := Text.trim line
  if line.isEmpty || imports.contains line then imports else imports ++ [line]

/-- Ask for several import lines. -/
def addAll (imports lines : List String) : List String :=
  lines.foldl add imports

/-- Write the import lines into a listing. -/
def write (imports : List String) (w : Listing) : Listing :=
  imports.foldl Listing.line w

end FlowScript.Imports
