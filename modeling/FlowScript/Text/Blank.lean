/-!
# Blank characters and trimming

Trimming removes the characters of the Unicode property `White_Space` from the ends of a text.
A text is blank when it holds no other character.
-/

namespace FlowScript.Text

/-- The 25 code points of the property `White_Space`. -/
def isBlank (c : Char) : Bool :=
  let n := c.toNat
  (9 ≤ n && n ≤ 13) || n == 0x20 || n == 0x85 || n == 0xA0 || n == 0x1680 ||
    (0x2000 ≤ n && n ≤ 0x200A) || n == 0x2028 || n == 0x2029 || n == 0x202F || n == 0x205F ||
    n == 0x3000

/-- Drop the blank characters at the end of a list. -/
def dropBlankEnd (cs : List Char) : List Char :=
  (cs.reverse.dropWhile isBlank).reverse

/-- A text without the blank characters at its end. -/
def trimEnd (s : String) : String :=
  String.ofList (dropBlankEnd s.toList)

/-- A text without the blank characters at both ends. -/
def trim (s : String) : String :=
  String.ofList (dropBlankEnd (s.toList.dropWhile isBlank))

/-- A text that holds blank characters only, the empty text included. -/
def isBlankText (s : String) : Bool :=
  s.toList.all isBlank

end FlowScript.Text
