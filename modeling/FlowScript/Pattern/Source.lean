import FlowScript.Pattern.Library

/-!
# Sources of patterns

A generator asks a source for patterns, one function at a time. A source answers with a pattern,
with the news that there is none, or with a failure, and its answers may change over time. The
library with outages is a source that fails a set number of times for a function.
-/

namespace FlowScript

/-- Why a source did not answer. -/
structure LookupFailure where
  functionId : String
  reason : String
deriving DecidableEq, Repr

/-- The text of a failure. -/
def LookupFailure.message (f : LookupFailure) : String :=
  "lookup of pattern '" ++ f.functionId ++ "' failed: " ++ f.reason

/-- The answer of a source. -/
inductive Answer where
  | found (pattern : Pattern)
  | notFound
  | failed (failure : LookupFailure)
deriving DecidableEq, Repr

/-- How a source with states of type `σ` answers for a function and a language. -/
abbrev PatternSource (σ : Type) :=
  σ → String → String → Answer × σ

/-- A library that is out of reach for the next lookups of some functions, with the functions that
were asked for. -/
structure Outages where
  library : PatternLibrary
  failures : List (String × Nat)
  asked : List String
deriving DecidableEq, Repr

namespace Outages

/-- A library without outages. -/
def ofLibrary (lib : PatternLibrary) : Outages :=
  ⟨lib, [], []⟩

/-- Let the next lookups of a function fail, `times` of them. -/
def fail (o : Outages) (function : String) (times : Nat) : Outages :=
  { o with failures := putEntry function times o.failures }

/-- Put a pattern into the library. -/
def insert (o : Outages) (function : String) (language : Option String) (p : Pattern) : Outages :=
  { o with library := o.library.insert function language p }

/-- Forget which functions were asked for. -/
def forget (o : Outages) : Outages :=
  { o with asked := [] }

/-- The answer of the library, or a failure while an outage lasts. -/
def answer : PatternSource Outages := fun o function language =>
  let o := { o with asked := o.asked ++ [function] }
  match o.failures.lookup function with
  | some (times + 1) =>
    (.failed ⟨function, "backend offline"⟩,
      { o with failures := putEntry function times o.failures })
  | _ =>
    match o.library.find? function language with
    | some p => (.found p, o)
    | none => (.notFound, o)

end Outages

end FlowScript
