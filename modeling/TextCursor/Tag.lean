import TextCursor.Failure

/-!
# Tags

A tag matches a literal: it slices as many bytes as the literal has and compares the text. The
window's two ends are rounded independently, so from inside a character a tag may reject a literal
that the rest of the text starts with.

* `run_eq_ok_iff`, `run_eq_error_iff`: a tag gives the window or fails where it stood, and which of
  the two depends on the window's text alone.
-/

namespace TextCursor

/-- The parser of one literal. -/
structure Tag where
  expected : String
deriving DecidableEq, Hashable

namespace Tag

/-- The length of the literal in bytes. -/
def width (t : Tag) : Position := .clamp t.expected.utf8ByteSize

/-- The snippet whose text is compared with the literal. -/
def window (t : Tag) (s : Snippet) : Snippet := s.slice t.width

/-- Gives the window after `s` if its text is the literal. -/
def run (t : Tag) : Parser Snippet := fun s =>
  if (t.window s).fragment = t.expected then .ok (t.window s) else .error ⟨s, .tag⟩

variable {t : Tag} {s : Snippet}

theorem run_eq_ok_iff {s' : Snippet} :
    t.run s = .ok s' ↔ (t.window s).fragment = t.expected ∧ s' = t.window s := by
  unfold run
  split <;> simp_all [eq_comm]

theorem run_eq_error_iff {f : Failure} :
    t.run s = .error f ↔ (t.window s).fragment ≠ t.expected ∧ f = ⟨s, .tag⟩ := by
  unfold run
  split <;> simp_all [eq_comm]

/-- A match takes the literal off the front of the rest. -/
theorem rest_of_run_eq_ok {s' : Snippet} (h : t.run s = .ok s') :
    s.rest = t.expected ++ s'.rest := by
  obtain ⟨hf, rfl⟩ := run_eq_ok_iff.1 h
  rw [← hf]
  exact (s.slice_fragment_append_rest t.width).symm

end Tag

end TextCursor
