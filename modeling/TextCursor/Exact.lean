import TextCursor.Chain

/-!
# Snippets at exact positions

The cursor of `Snippet` with natural numbers for its offset and length, so that no sum is clamped.
Its runs are what the runs of clamped snippets are compared with: past the end of the source the two
stand at different positions and read the same text.
-/

namespace TextCursor.Exact

/-- A cursor into `source` whose positions have no largest value. -/
structure Snippet where
  source : String
  offset : Nat
  length : Nat
deriving DecidableEq

namespace Snippet

/-- The empty snippet at the start of a text. -/
def input (source : String) : Snippet := ⟨source, 0, 0⟩

/-- Where the next snippet starts. -/
def stop (s : Snippet) : Nat := s.offset + s.length

/-- The snippet of `n` bytes that starts where `s` stops. -/
def slice (s : Snippet) (n : Nat) : Snippet := ⟨s.source, s.stop, n⟩

/-- The text that `s` denotes. -/
def fragment (s : Snippet) : String :=
  Text.between s.source s.offset s.stop (Nat.le_add_right ..)

/-- The text after the fragment. -/
def rest (s : Snippet) : String := Text.after s.source s.stop

/-- Whether nothing is left after the fragment. -/
def atEnd (s : Snippet) : Bool := s.rest.isEmpty

end Snippet

/-- Runs one step; a tag that does not match fails with the snippet at which it was tried. -/
def step : Step → Snippet → Except Snippet Snippet
  | .slice n, s => .ok (s.slice n.toNat)
  | .tag t, s =>
    let window := s.slice t.expected.utf8ByteSize
    if window.fragment = t.expected then .ok window else .error s

/-- The snippet after the last step, or the one at which a tag failed. -/
def run (steps : Chain) (s : Snippet) : Except Snippet Snippet := Run.final step steps s

/-- The snippets that the steps give, up to the one that fails. -/
def trail (steps : Chain) (s : Snippet) : List Snippet := Run.trail step steps s

end TextCursor.Exact
