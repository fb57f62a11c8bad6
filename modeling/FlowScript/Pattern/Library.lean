import FlowScript.Document.Record
import FlowScript.Pattern.Basic

/-!
# Libraries of patterns

A library holds patterns by function. A pattern is for one language or for all of them, and the one
for a language comes first.
-/

namespace FlowScript

/-- Patterns by function, and by function and language. -/
structure PatternLibrary where
  byLanguage : List ((String × String) × Pattern)
  anyLanguage : List (String × Pattern)
deriving DecidableEq, Repr

/-- Put an entry into a list of entries, in place of the earlier one of its key. -/
def putEntry {α β : Type} [DecidableEq α] (key : α) (value : β) : List (α × β) → List (α × β)
  | [] => [(key, value)]
  | e :: rest => if e.1 = key then (key, value) :: rest else e :: putEntry key value rest

namespace PatternLibrary

/-- The library without patterns. -/
def empty : PatternLibrary :=
  ⟨[], []⟩

/-- Put a pattern under a function, for one language or, if none is given, for all. -/
def insert (lib : PatternLibrary) (function : String) (language : Option String) (p : Pattern) :
    PatternLibrary :=
  match language with
  | some l => { lib with byLanguage := putEntry (function, l) p lib.byLanguage }
  | none => { lib with anyLanguage := putEntry function p lib.anyLanguage }

/-- The number of patterns. -/
def size (lib : PatternLibrary) : Nat :=
  lib.byLanguage.length + lib.anyLanguage.length

/-- The pattern of a function in a language. -/
def find? (lib : PatternLibrary) (function language : String) : Option Pattern :=
  (lib.byLanguage.lookup (function, language)) <|> lib.anyLanguage.lookup function

end PatternLibrary

/-- The names of the kinds of a pattern. -/
def PatternKind.names : List (String × PatternKind) :=
  [("expression", .expression), ("statement", .statement), ("block", .block)]

/-- The written name of a pattern's kind. -/
def PatternKind.tag : PatternKind → String
  | .expression => "expression"
  | .statement => "statement"
  | .block => "block"

/-- A line of a pattern list. -/
structure PatternEntry where
  functionId : String
  languageId : Option String
  pattern : Pattern
deriving DecidableEq, Repr

open Record
open FlowScript.Json (Form)

/-- The fields of a line of a pattern list. -/
def PatternEntry.fields : List (List String) :=
  [["functionId"], ["languageId"], ["pattern"], ["kind"], ["imports"]]

/-- Read a line of a pattern list. -/
def PatternEntry.ofForm (f : Form) : Option PatternEntry := do
  match ← slots PatternEntry.fields f with
  | [function, language, pattern, kind, imports] =>
    some {
      functionId := ← required string function
      languageId := ← optional string language
      pattern := {
        text := ← required string pattern
        kind := ← required (choice PatternKind.names) kind
        imports := ← orElse (list string) [] imports } }
  | _ => none

namespace PatternLibrary

/-- The library of a pattern list; later lines replace earlier ones. -/
def ofEntries (entries : List PatternEntry) : PatternLibrary :=
  entries.foldl (fun lib e => lib.insert e.functionId e.languageId e.pattern) empty

/-- Read a library from a pattern list. -/
def ofForm (f : Form) : Option PatternLibrary :=
  (list PatternEntry.ofForm f).map ofEntries

/-- Read a library from the text of a pattern list. -/
def parse? (text : String) : Option PatternLibrary :=
  (Form.parse? text).bind ofForm

end PatternLibrary

end FlowScript
