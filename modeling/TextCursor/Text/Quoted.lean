/-!
# Quoted text

A text between double quotes. A quote, a backslash, a newline, a carriage return, a tab and NUL are
written as a backslash and one character, any other ASCII control character as its number in
lower-case hexadecimal between braces, and all else as it is.
-/

namespace TextCursor.Text

namespace Quoted

/-- Whether `c` is written by its number. -/
def isControl (c : Char) : Bool := c.toNat < 0x20 || c.toNat == 0x7f

/-- How a character is written between quotes. -/
def escape (c : Char) : List Char :=
  match c with
  | '"' => ['\\', '"']
  | '\\' => ['\\', '\\']
  | '\n' => ['\\', 'n']
  | '\r' => ['\\', 'r']
  | '\t' => ['\\', 't']
  | '\x00' => ['\\', '0']
  | c =>
    if isControl c then '\\' :: 'u' :: '\x7b' :: Nat.toDigits 16 c.toNat ++ ['\x7d'] else [c]

/-- The quoted form of a text. -/
def encode (cs : List Char) : List Char := '"' :: cs.flatMap escape ++ ['"']

end Quoted

/-- The text `s` in quotes. -/
def quote (s : String) : String := .ofList (Quoted.encode s.toList)

end TextCursor.Text
