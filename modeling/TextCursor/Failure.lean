import TextCursor.Snippet

/-!
# Failures and parsers

A parser takes the snippet it starts from and either gives a value or fails. A failure names the
snippet at which the parser was tried, not the text that it looked for.
-/

namespace TextCursor

/-- Why a parser failed. -/
inductive Reason where
  /-- The text at the snippet is not the literal. -/
  | tag
deriving DecidableEq, Hashable

/-- The name of the parser that gives this reason. -/
def Reason.name : Reason → String
  | .tag => "tag"

instance : ToString Reason := ⟨Reason.name⟩

/-- A parser that was tried after `snippet` and did not match. -/
structure Failure where
  snippet : Snippet
  reason : Reason
deriving DecidableEq, Hashable

/-- What a reader is told: the parser, and the byte at which it was tried. -/
def Failure.message (f : Failure) : String :=
  toString f.reason ++ " did not match at byte " ++ Nat.repr f.snippet.stop.toNat

instance : ToString Failure := ⟨Failure.message⟩

theorem Failure.message_tag (s : Snippet) :
    (Failure.mk s .tag).message = "tag did not match at byte " ++ Nat.repr s.stop.toNat := rfl

/-- A parser of values of type `α`. -/
abbrev Parser (α : Type) := Snippet → Except Failure α

/-- Runs a parser from the start of a text. -/
def Parser.parse {α : Type} (p : Parser α) (source : String) : Except Failure α :=
  p (.input source)

/-- What a parser of snippets ends with. -/
abbrev Outcome := Except Failure Snippet

/-- The snippet from which to go on: the one reached, or the one at which the parser failed. -/
def Outcome.resume : Outcome → Snippet
  | .ok s => s
  | .error f => f.snippet

@[simp] theorem Outcome.resume_ok (s : Snippet) : Outcome.resume (.ok s) = s := rfl

@[simp] theorem Outcome.resume_error (f : Failure) : Outcome.resume (.error f) = f.snippet := rfl

end TextCursor
