import FlowScript.Text.Shown

/-!
# Settings

How programs are written: for which language patterns are looked up, how lines are indented, whether
the body is wrapped into an entry function, and what stands at the top as a comment.
-/

namespace FlowScript

/-- The settings of a generator. -/
structure Settings where
  language : String
  /-- One level of indentation. -/
  indent : String
  entryFunction : String
  /-- Whether the body is wrapped into the entry function and the function is called. -/
  entryPoint : Bool
  header : Option String
deriving DecidableEq, Repr

/-- Why settings are refused. -/
inductive SettingsError where
  /-- The text of the settings cannot be read. -/
  | unreadable
  | badIndent (indent : String)
  | badEntryFunction (name : String)
deriving DecidableEq, Repr

/-- The text of a refusal. -/
def SettingsError.message : SettingsError → String
  | .unreadable => "invalid generator config: TOML parse error"
  | .badIndent indent =>
    "invalid generator config: indent must be non-empty whitespace, got " ++ Text.shown indent
  | .badEntryFunction name =>
    "invalid generator config: entry_function must be an identifier, got '" ++ name ++ "'"

namespace Settings

/-- The settings where nothing else is said. -/
def standard : Settings where
  language := "python"
  indent := "    "
  entryFunction := "main"
  entryPoint := true
  header := none

/-- Whether a text can stand for one level of indentation: blanks and tabs, at least one. -/
def isIndent (text : String) : Bool :=
  !text.isEmpty && text.toList.all fun c => c == ' ' || c == '\t'

/-- Whether a text is an identifier: a letter or an underscore, then letters, digits and
underscores. -/
def isIdentifier (text : String) : Bool :=
  match text.toList with
  | [] => false
  | c :: rest => (c.isAlpha || c == '_') && rest.all fun c => c.isAlphanum || c == '_'

/-- Accept settings that programs can be written with; the indentation is looked at first. -/
def validate (s : Settings) : Except SettingsError Settings :=
  if !isIndent s.indent then .error (.badIndent s.indent)
  else if !isIdentifier s.entryFunction then .error (.badEntryFunction s.entryFunction)
  else .ok s

end Settings

end FlowScript
