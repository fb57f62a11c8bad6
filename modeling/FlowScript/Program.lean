import FlowScript.Listing.Imports
import FlowScript.Settings.Basic

/-!
# The layout of a program

A program is a header of comment lines, the import lines and the body. With an entry point, the body
is the body of the entry function, and the function is called when the program is run.
-/

namespace FlowScript

/-- The parts of a program. -/
structure Program where
  imports : List String
  body : List Item
deriving DecidableEq, Repr

namespace Program

/-- Write the comment lines at the top, with a blank line after them. -/
def writeHeader (header : Option String) (w : Listing) : Listing :=
  match header with
  | none => w
  | some header =>
    ((Text.lines header).foldl (fun w l => w.line (if l.isEmpty then "#" else "# " ++ l)) w).blank

/-- Write the import lines, with a blank line after them if there are any. -/
def writeImports (imports : List String) (w : Listing) : Listing :=
  if imports.isEmpty then w else (Imports.write imports w).blank

/-- Write the entry function around a body, and its call. A function without a body passes. -/
def writeEntry (function unit : String) (body w : Listing) : Listing :=
  let w := w.openBlock ("def " ++ function ++ "():")
  let w := if body.isEmpty unit then w.line "pass" else w.verbatim (body.render unit)
  let w := w.dedent.blank.blank.openBlock "if __name__ == \"__main__\":"
  (w.line (function ++ "()")).dedent

/-- The body as a listing of its own; in the entry function it is one level deeper. -/
def bodyListing (p : Program) (s : Settings) : Listing :=
  let depth := if s.entryPoint then 1 else 0
  ⟨depth, p.body.map (Item.shift depth)⟩

/-- The listing of a program under some settings. -/
def listing (p : Program) (s : Settings) : Listing :=
  let body := p.bodyListing s
  let w := writeImports p.imports (writeHeader s.header .empty)
  if s.entryPoint then writeEntry s.entryFunction s.indent body w
  else w.verbatim (body.render s.indent)

/-- The text of a program under some settings. -/
def text (p : Program) (s : Settings) : String :=
  (p.listing s).render s.indent

end Program

end FlowScript
