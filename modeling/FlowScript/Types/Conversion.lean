import FlowScript.Types.Compatibility

/-!
# Conversion of expressions

Where the rules ask for a conversion, an expression is wrapped in the function that is registered
for the pair of types or else in a fixed expression for the pair. If there is neither, or no
conversion is asked for, the expression stays as it is.
-/

namespace FlowScript

/-- How an expression was brought from one type to another. -/
inductive Strategy where
  | unchanged
  | registered (function : String)
  | fallback
  | unavailable
deriving DecidableEq, Repr

/-- A converted expression. -/
structure Conversion where
  expression : String
  compatibility : Compatibility
  strategy : Strategy
deriving DecidableEq, Repr

/-- Whether the expression was wrapped. -/
def Conversion.applied (c : Conversion) : Bool :=
  match c.strategy with
  | .registered _ | .fallback => true
  | _ => false

/-- Type rules with the functions that convert; the first function for a pair counts. -/
structure Conversions where
  rules : TypeRules
  functions : List ((String × String) × String)
deriving DecidableEq, Repr

namespace Conversions

/-- Fixed expressions only. -/
def plain (rules : TypeRules) : Conversions :=
  ⟨rules, []⟩

/-- The usual functions. -/
def standard (rules : TypeRules) : Conversions :=
  ⟨rules, [(("number", "string"), "str"), (("boolean", "string"), "str"),
    (("array", "string"), "str"), (("object", "string"), "str"), (("string", "number"), "float"),
    (("boolean", "number"), "int"), (("number", "boolean"), "bool")]⟩

/-- Register a function, in place of any earlier one for the same pair. -/
def register (c : Conversions) (source target function : String) : Conversions :=
  { c with functions :=
      ((TypeName.canonical source, TypeName.canonical target), function) :: c.functions }

/-- The fixed expression for a pair of canonical types. -/
def fallback? (expression source target : String) : Option String :=
  match source, target with
  | "number", "string" | "boolean", "string" | "array", "string" | "object", "string" =>
    some ("str(" ++ expression ++ ")")
  | "string", "number" => some ("float(" ++ expression ++ ")")
  | "string", "boolean" => some ("(str(" ++ expression ++ ").strip().lower() == \"true\")")
  | "boolean", "number" => some ("int(" ++ expression ++ ")")
  | "number", "boolean" => some ("bool(" ++ expression ++ ")")
  | "object", "array" => some ("list(" ++ expression ++ ")")
  | _, _ => none

/-- Bring an expression from one type to another. -/
def convert (c : Conversions) (expression source target : String) : Conversion :=
  let compatibility := c.rules.check source target
  if compatibility = .withConversion then
    let s := TypeName.canonical source
    let t := TypeName.canonical target
    match c.functions.lookup (s, t) with
    | some f => ⟨f ++ "(" ++ expression ++ ")", compatibility, .registered f⟩
    | none =>
      match fallback? expression s t with
      | some wrapped => ⟨wrapped, compatibility, .fallback⟩
      | none => ⟨expression, compatibility, .unavailable⟩
  else ⟨expression, compatibility, .unchanged⟩

end Conversions

end FlowScript
