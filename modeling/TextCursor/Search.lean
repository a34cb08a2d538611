import TextCursor.Tag

/-!
# Trying every byte

The probes of a text stand at every byte of it, at its end, and at two positions past the end. From
there `sweep` slices and `find` tries a literal, so also from inside a character.
-/

namespace TextCursor.Search

/-- The snippets from the start of `source` to each byte position, to two past the end. -/
def probes (source : String) : List Snippet :=
  (List.range (source.utf8ByteSize + 3)).map fun i => (Snippet.input source).slice (.clamp i)

/-- Each probe with the snippet of `width` bytes after it. -/
def sweep (source : String) (width : Position) : List (Snippet × Snippet) :=
  (probes source).map fun head => (head, head.slice width)

/-- That `e` stands in `source` at byte `p`. -/
def Occurs (e source : String) (p : Nat) : Prop :=
  ∃ x y, source = x ++ e ++ y ∧ x.utf8ByteSize = p

/-- A match: where it starts, and how many bytes are left after it. -/
structure Hit where
  offset : Position
  left : Nat
deriving DecidableEq

/-- What is recorded of the snippet that a tag gives. -/
def Hit.ofSnippet (s : Snippet) : Hit := ⟨s.offset, s.rest.utf8ByteSize⟩

/-- The hits of a tag at the probes of `source`, in order. -/
def find (t : Tag) (source : String) : List Hit :=
  (probes source).filterMap fun head => ((t.run head).toOption).map Hit.ofSnippet

end TextCursor.Search
