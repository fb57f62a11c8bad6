import FlowScript.Json.Value
import FlowScript.Types.Name

/-!
# Literals of the generated program

JSON values as they are written in a program, and the value that stands in for a missing one of a
given type.
-/

namespace FlowScript.Literal

open FlowScript.Json (Value)

/-- Written where there is no value. -/
def neutral : String :=
  "None"

/-- The written form of one character of a string. -/
def escape (c : Char) : List Char :=
  if c = '\\' then ['\\', '\\']
  else if c = '"' then ['\\', '"']
  else if c = '\n' then ['\\', 'n']
  else if c = '\r' then ['\\', 'r']
  else if c = '\t' then ['\\', 't']
  else [c]

/-- A string between double quotes. -/
def quote (s : String) : List Char :=
  '"' :: s.toList.flatMap escape ++ ['"']

mutual

/-- The characters of a literal. -/
def chars : Value → List Char
  | .null => neutral.toList
  | .bool true => "True".toList
  | .bool false => "False".toList
  | .number n => n.text.toList
  | .string s => quote s
  | .array items => '[' :: itemChars items ++ [']']
  | .object members => '{' :: memberChars members ++ ['}']

/-- The items of a list. -/
def itemChars : List Value → List Char
  | [] => []
  | [v] => chars v
  | v :: w :: rest => chars v ++ ',' :: ' ' :: itemChars (w :: rest)

/-- The entries of a mapping. -/
def memberChars : List (String × Value) → List Char
  | [] => []
  | [(k, v)] => quote k ++ ':' :: ' ' :: chars v
  | (k, v) :: m :: rest => quote k ++ ':' :: ' ' :: chars v ++ ',' :: ' ' :: memberChars (m :: rest)

end

/-- The literal of a JSON value. -/
def ofValue (v : Value) : String :=
  String.ofList (chars v)

/-- The literal that stands in for a value of a type. -/
def ofType (type : String) : String :=
  match TypeName.canonical type with
  | "string" => "\"\""
  | "number" => "0"
  | "boolean" => "False"
  | "array" => "[]"
  | "object" => "\x7b\x7d"
  | _ => neutral

end FlowScript.Literal
