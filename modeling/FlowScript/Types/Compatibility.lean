import FlowScript.Graph.Basic
import FlowScript.Types.Name

/-!
# Compatibility of port types

Equal types fit, and `any` fits every type. Other pairs fit with a conversion if the rules allow it.
A pair without a rule is incompatible when both types are known and undecided otherwise.
-/

namespace FlowScript

/-- How a source type fits a target type. -/
inductive Compatibility where
  | compatible
  | withConversion
  | incompatible
  | unknown
deriving DecidableEq, Repr

/-- The pairs of types that fit with a conversion, in canonical form. -/
structure TypeRules where
  pairs : List (String × String)
deriving DecidableEq, Repr

namespace TypeRules

/-- No conversion is allowed. -/
def strict : TypeRules :=
  ⟨[]⟩

/-- The usual conversions between the known types. -/
def standard : TypeRules :=
  ⟨[("number", "string"), ("string", "number"), ("boolean", "string"), ("string", "boolean"),
    ("boolean", "number"), ("number", "boolean"), ("array", "string"), ("object", "string")]⟩

/-- Allow one more conversion. -/
def allow (r : TypeRules) (source target : String) : TypeRules :=
  ⟨r.pairs ++ [(TypeName.canonical source, TypeName.canonical target)]⟩

/-- How two types fit. -/
def check (r : TypeRules) (source target : String) : Compatibility :=
  let s := TypeName.canonical source
  let t := TypeName.canonical target
  if s = t ∨ s = "any" ∨ t = "any" then .compatible
  else if r.pairs.contains (s, t) then .withConversion
  else if TypeName.isKnown s && TypeName.isKnown t then .incompatible
  else .unknown

/-- How an output port of one node fits an input port of another, both given by their ids; undecided
if there is no such port. -/
def checkPorts (r : TypeRules) (g : FlowGraph) (source target : String × String) :
    Compatibility :=
  let node (id : String) : Option Node := (g.index? id).bind g.node?
  match (node source.1).bind (·.output? source.2), (node target.1).bind (·.input? target.2) with
  | some s, some t => r.check s.type t.type
  | _, _ => .unknown

end TypeRules

end FlowScript
