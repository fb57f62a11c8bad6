import FlowScript.Text.Word

/-!
# Names of port types

A type name is compared in its canonical form: trimmed, in small letters, and with the common
aliases folded onto six known names. Any other name stands for itself.
-/

namespace FlowScript.TypeName

/-- The known types. -/
def known : List String :=
  ["any", "number", "string", "boolean", "array", "object"]

/-- The names that stand for a known type, beside its own. -/
def aliases : List (String × String) :=
  [("", "any"), ("*", "any"),
    ("int", "number"), ("integer", "number"), ("float", "number"), ("double", "number"),
    ("decimal", "number"),
    ("str", "string"), ("text", "string"),
    ("bool", "boolean"),
    ("list", "array"),
    ("dict", "object"), ("map", "object"), ("record", "object")]

/-- The canonical form of a type name. -/
def canonical (type : String) : String :=
  let name := Text.lower (Text.trim type)
  (aliases.lookup name).getD name

/-- Whether a canonical name is one of the known types. -/
def isKnown (name : String) : Bool :=
  known.contains name

end FlowScript.TypeName
