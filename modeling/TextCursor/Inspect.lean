import TextCursor.Failure
import TextCursor.Tag
import TextCursor.Template
import TextCursor.Text.Quoted

/-!
# Inspection texts

The value of each type written out: the type's name, then its fields in order with their names
between braces, or its parts between parentheses. Texts are quoted (`Text.quote`) and numbers are
decimal, so that a text imitating the field syntax cannot be mistaken for it.
-/

namespace TextCursor

/-- A snippet written out. -/
def Snippet.inspect (s : Snippet) : String :=
  "Snippet \x7b source: " ++ Text.quote s.source ++ ", offset: " ++ Nat.repr s.offset.toNat ++
    ", length: " ++ Nat.repr s.length.toNat ++ " \x7d"

/-- The name of a reason's constructor. -/
def Reason.inspect : Reason → String
  | .tag => "Tag"

/-- A failure written out, with its snippet in it. -/
def Failure.inspect (f : Failure) : String :=
  "Failure \x7b snippet: " ++ f.snippet.inspect ++ ", reason: " ++ f.reason.inspect ++ " \x7d"

/-- A tag written out. -/
def Tag.inspect (t : Tag) : String := "Tag(" ++ Text.quote t.expected ++ ")"

/-- An outcome written out: which of the two it is, and what it holds. -/
def Outcome.inspect : Outcome → String
  | .ok s => "Ok(" ++ s.inspect ++ ")"
  | .error f => "Err(" ++ f.inspect ++ ")"

/-- A template written out. -/
def Template.inspect (_ : Template) : String := "Template"

end TextCursor
