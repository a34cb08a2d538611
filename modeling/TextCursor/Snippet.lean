import TextCursor.Position
import TextCursor.Text.Cut

/-!
# Snippets

A snippet is a cursor into a text: it denotes `length` bytes of its source from `offset` on. Neither
number is checked against the source. The next snippet starts where this one stops, and the text
that a snippet denotes is cut at rounded positions (`Text.between`), so that running past the end
shortens the text and no character is ever split.

* `fragment_append_rest`: a snippet's fragment and rest are the text from its offset on.
* `slice_fragment_append_rest`: slicing moves text from the rest into the fragment.
-/

namespace TextCursor

/-- A cursor into `source`: `length` bytes from byte `offset` on. -/
structure Snippet where
  source : String
  offset : Position
  length : Position
deriving DecidableEq, Hashable

namespace Snippet

/-- The empty snippet at the start of a text. -/
def input (source : String) : Snippet := ⟨source, 0, 0⟩

/-- Where the next snippet starts. -/
def stop (s : Snippet) : Position := .clamp (s.offset.toNat + s.length.toNat)

/-- The snippet of `n` bytes that starts where `s` stops. -/
def slice (s : Snippet) (n : Position) : Snippet := ⟨s.source, s.stop, n⟩

theorem toNat_stop (s : Snippet) :
    s.stop.toNat = min (s.offset.toNat + s.length.toNat) Position.largest := Position.toNat_clamp _

theorem offset_le_stop (s : Snippet) : s.offset.toNat ≤ s.stop.toNat := by
  have := Position.toNat_le_largest s.offset
  rw [toNat_stop]
  omega

/-- The text that `s` denotes. -/
def fragment (s : Snippet) : String :=
  Text.between s.source s.offset.toNat s.stop.toNat s.offset_le_stop

/-- The text after the fragment. -/
def rest (s : Snippet) : String := Text.after s.source s.stop.toNat

/-- Whether nothing is left after the fragment. -/
def atEnd (s : Snippet) : Bool := s.rest.isEmpty

/-- By how many bytes the rest starts after the stop: not zero only if the stop is in a character. -/
def skew (s : Snippet) : Nat := Text.ceil s.source s.stop.toNat - s.stop.toNat

instance : ToString Snippet := ⟨fragment⟩

@[simp] theorem source_input (t : String) : (input t).source = t := rfl
@[simp] theorem offset_input (t : String) : (input t).offset = 0 := rfl
@[simp] theorem length_input (t : String) : (input t).length = 0 := rfl
@[simp] theorem stop_input (t : String) : (input t).stop = 0 := rfl

@[simp] theorem source_slice (s : Snippet) (n : Position) : (s.slice n).source = s.source := rfl
@[simp] theorem offset_slice (s : Snippet) (n : Position) : (s.slice n).offset = s.stop := rfl
@[simp] theorem length_slice (s : Snippet) (n : Position) : (s.slice n).length = n := rfl

theorem toNat_stop_slice (s : Snippet) (n : Position) :
    (s.slice n).stop.toNat = min (s.stop.toNat + n.toNat) Position.largest := by
  rw [toNat_stop, offset_slice, length_slice]

theorem atEnd_iff {s : Snippet} : s.atEnd = true ↔ s.rest = "" := by simp [atEnd]

/-- The fragment, cut from a text known to be the source. -/
theorem fragment_of_source_eq {s : Snippet} {source : String} (h : s.source = source) :
    s.fragment = Text.between source s.offset.toNat s.stop.toNat s.offset_le_stop := by
  subst h
  rfl

theorem fragment_append_rest (s : Snippet) :
    s.fragment ++ s.rest = Text.after s.source s.offset.toNat :=
  Text.between_append_after _ s.offset_le_stop

theorem utf8ByteSize_fragment (s : Snippet) :
    s.fragment.utf8ByteSize =
      Text.ceil s.source s.stop.toNat - Text.ceil s.source s.offset.toNat :=
  Text.utf8ByteSize_between _ s.offset_le_stop

theorem utf8ByteSize_rest (s : Snippet) :
    s.rest.utf8ByteSize = s.source.utf8ByteSize - Text.ceil s.source s.stop.toNat :=
  Text.utf8ByteSize_after ..

theorem rest_eq_empty_iff {s : Snippet} :
    s.rest = "" ↔ Text.ceil s.source s.stop.toNat = s.source.utf8ByteSize := by
  have := Text.ceil_le_size s.source s.stop.toNat
  rw [← String.utf8ByteSize_eq_zero_iff, utf8ByteSize_rest]
  omega

theorem slice_fragment_append_rest (s : Snippet) (n : Position) :
    (s.slice n).fragment ++ (s.slice n).rest = s.rest := fragment_append_rest (s.slice n)

@[simp] theorem rest_input (t : String) : (input t).rest = t :=
  Text.eq_after (u := "") (v := t) (by simp)

/-! ## Slicing repeatedly -/

/-- The snippet reached from `s` by slicing with each of `cuts` in turn. -/
def sliceAll (s : Snippet) (cuts : List Position) : Snippet := cuts.foldl slice s

/-- The snippets passed on the way from `s`, one for each cut. -/
def pieces (s : Snippet) : List Position → List Snippet
  | [] => []
  | n :: cuts => s.slice n :: (s.slice n).pieces cuts

@[simp] theorem sliceAll_nil (s : Snippet) : s.sliceAll [] = s := rfl

@[simp] theorem sliceAll_cons (s : Snippet) (n : Position) (cuts : List Position) :
    s.sliceAll (n :: cuts) = (s.slice n).sliceAll cuts := rfl

theorem getLastD_pieces (s : Snippet) (cuts : List Position) :
    (s.pieces cuts).getLastD s = s.sliceAll cuts := by
  induction cuts generalizing s with
  | nil => rfl
  | cons n cuts ih => rw [pieces, List.getLastD_cons, ih, sliceAll_cons]

/-- A piece starts where the one before it stops, and the first one where `s` stops. -/
theorem offset_of_getElem?_pieces {s q : Snippet} {cuts : List Position} {j : Nat}
    (h : (s.pieces cuts)[j]? = some q) :
    ∃ q₀, (s :: s.pieces cuts)[j]? = some q₀ ∧ q.offset = q₀.stop := by
  induction cuts generalizing s j with
  | nil => cases h
  | cons n cuts ih =>
    cases j with
    | zero =>
      cases h
      exact ⟨s, rfl, rfl⟩
    | succ j => exact ih h

end Snippet

end TextCursor
