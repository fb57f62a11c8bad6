import FlowScript.Settings.Basic
import FlowScript.Toml.Scan

/-!
# Settings in a TOML text

A setting that is not given keeps its standard value, and keys that name no setting are skipped.
-/

namespace FlowScript.Settings

open FlowScript.Toml (Value Entries)

/-- A setting that is a string. -/
def stringAt (entries : Entries) (key : String) (absent : String) : Option String :=
  match entries.lookup key with
  | none => some absent
  | some (.string s) => some s
  | some _ => none

/-- A setting that is a truth value. -/
def boolAt (entries : Entries) (key : String) (absent : Bool) : Option Bool :=
  match entries.lookup key with
  | none => some absent
  | some (.boolean b) => some b
  | some _ => none

/-- A setting that is a string or absent. -/
def optionAt (entries : Entries) (key : String) : Option (Option String) :=
  match entries.lookup key with
  | none => some none
  | some (.string s) => some (some s)
  | some _ => none

/-- The settings that some entries give. -/
def ofEntries (entries : Entries) : Option Settings := do
  let language ← stringAt entries "language_id" standard.language
  let indent ← stringAt entries "indent" standard.indent
  let entryFunction ← stringAt entries "entry_function" standard.entryFunction
  let entryPoint ← boolAt entries "emit_entry_point" standard.entryPoint
  let header ← optionAt entries "header_comment"
  some ⟨language, indent, entryFunction, entryPoint, header⟩

/-- Read settings from a text, and accept them if programs can be written with them. -/
def parse (text : String) : Except SettingsError Settings :=
  match (Entries.parse? text).bind ofEntries with
  | some s => s.validate
  | none => .error .unreadable

end FlowScript.Settings
