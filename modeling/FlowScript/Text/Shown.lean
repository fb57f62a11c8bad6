import FlowScript.Text.Unseen

/-!
# Text shown in a message

A text is shown between double quotes. Quotes, backslashes and the common control characters have
short escapes, and any other character without a visible form is shown by its code in hexadecimal.
-/

namespace FlowScript.Text

/-- The written form of one character between double quotes. -/
def showChar (c : Char) : List Char :=
  if c = '\x00' then ['\\', '0']
  else if c = '\t' then ['\\', 't']
  else if c = '\r' then ['\\', 'r']
  else if c = '\n' then ['\\', 'n']
  else if c = '"' then ['\\', '"']
  else if c = '\\' then ['\\', '\\']
  else if isUnseen c then ['\\', 'u', '{'] ++ Nat.toDigits 16 c.toNat ++ ['}']
  else [c]

/-- A text between double quotes, with every character visible. -/
def shown (s : String) : String :=
  String.ofList ('"' :: s.toList.flatMap showChar ++ ['"'])

end FlowScript.Text
