import FlowScript.Text.Blank
import FlowScript.Text.Lines

/-!
# Listings

A listing is the text of a program before its layout is fixed: lines at a level of indentation,
blank lines, and text that is copied as it is. The unit of indentation is chosen when the listing is
rendered.
-/

namespace FlowScript

/-- One item of a listing. -/
inductive Item where
  | line (level : Nat) (text : String)
  | blank
  | verbatim (text : String)
deriving DecidableEq, Repr

namespace Item

/-- The text of an item under a unit of indentation. -/
def render (unit : String) : Item → String
  | .line level text => String.join (List.replicate level unit) ++ text ++ "\n"
  | .blank => "\n"
  | .verbatim text => text

/-- The number of lines that an item counts for. -/
def lineCount : Item → Nat
  | .line _ _ => 1
  | .blank => 1
  | .verbatim text => text.toList.count '\n'

/-- An item moved to a deeper level. -/
def shift (depth : Nat) : Item → Item
  | .line level text => .line (level + depth) text
  | .blank => .blank
  | .verbatim text => .verbatim text

/-- The items of a text of several lines at a level; its own indentation is kept. -/
def ofLines (level : Nat) (text : String) : List Item :=
  (Text.lines text).map fun l => if Text.isBlankText l then .blank else .line level l

end Item

/-- The text of some items under a unit of indentation. -/
def renderItems (unit : String) (items : List Item) : String :=
  String.join (items.map (Item.render unit))

/-- A listing that is being written, with the level at which the next line goes. -/
structure Listing where
  level : Nat
  items : List Item
deriving DecidableEq, Repr

namespace Listing

/-- The listing without items. -/
def empty : Listing :=
  ⟨0, []⟩

/-- Write an item. -/
def push (w : Listing) (item : Item) : Listing :=
  { w with items := w.items ++ [item] }

/-- Write a line at the current level. -/
def line (w : Listing) (text : String) : Listing :=
  w.push (.line w.level text)

/-- Write a blank line. -/
def blank (w : Listing) : Listing :=
  w.push .blank

/-- Write the lines of a text at the current level. -/
def lines (w : Listing) (text : String) : Listing :=
  { w with items := w.items ++ Item.ofLines w.level text }

/-- Write text as it is. -/
def verbatim (w : Listing) (text : String) : Listing :=
  w.push (.verbatim text)

/-- Go one level deeper. -/
def indent (w : Listing) : Listing :=
  { w with level := w.level + 1 }

/-- Go one level back, but not before the start of the line. -/
def dedent (w : Listing) : Listing :=
  { w with level := w.level - 1 }

/-- Write a header and go one level deeper. -/
def openBlock (w : Listing) (header : String) : Listing :=
  (w.line header).indent

/-- Close a block and open the alternative to it. -/
def openElse (w : Listing) : Listing :=
  w.dedent.openBlock "else:"

/-- The number of lines. -/
def lineCount (w : Listing) : Nat :=
  w.items.foldl (fun count item => count + item.lineCount) 0

/-- The text under a unit of indentation. -/
def render (w : Listing) (unit : String) : String :=
  renderItems unit w.items

/-- Whether nothing has been written. -/
def isEmpty (w : Listing) (unit : String) : Bool :=
  (w.render unit).isEmpty

end Listing

end FlowScript
