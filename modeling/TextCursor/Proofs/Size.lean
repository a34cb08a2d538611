import TextCursor.Proofs.Characters

/-!
# How much a snippet reads

A snippet asks for a number of bytes and reads whole characters. Its two ends are rounded in the
same direction, so rounding the stop adds bytes and rounding the offset takes bytes away, at most
three on either side.

* `length_between_le`: between two positions start at most as many characters as there are bytes.
* `utf8ByteSize_between_le`: their size is at most three more.
* `Snippet.utf8ByteSize_fragment_add`: within the source, what is read and what is asked for differ
  by the two roundings.
* `Snippet.rest_lt_of_four_le`: four bytes are more than the rounding takes away, so that a slice
  within the source leaves less than there was.
* `Snippet.fragment_size`: all of this of one snippet.
-/

namespace TextCursor

namespace Text

/-- Two characters do not start at the same byte. -/
theorem length_filter_withBytes_le (i j b : Nat) (cs : List Char) :
    ((withBytes b cs).filter fun x => i ≤ x.1 ∧ x.1 < j).length ≤ j - max i b := by
  induction cs generalizing b with
  | nil => exact Nat.zero_le _
  | cons c cs ih =>
    have hc := c.utf8Size_pos
    have htail := ih (b + c.utf8Size)
    rw [withBytes]
    by_cases hb : i ≤ b ∧ b < j
    · rw [List.filter_cons_of_pos (by simpa using hb), List.length_cons]
      omega
    · rw [List.filter_cons_of_neg (by simpa using hb)]
      omega

theorem length_between_le (s : String) {i j : Nat} (h : i ≤ j) :
    (between s i j h).length ≤ j - i := by
  have := length_filter_withBytes_le i j 0 s.toList
  rw [← charsWhere_between, charsWhere, String.length_ofList, List.length_map]
  omega

theorem utf8ByteSize_between_le (s : String) {i j : Nat} (h : i ≤ j) :
    (between s i j h).utf8ByteSize ≤ j - i + 3 := by
  have hi := le_ceil s i
  have hj := ceil_le_add_three s j
  rw [utf8ByteSize_between]
  omega

end Text

namespace Snippet

open Text

variable {s : Snippet}

theorem length_fragment_le (s : Snippet) : s.fragment.length ≤ s.length.toNat := by
  have hle := length_between_le s.source s.offset_le_stop
  have hstop := s.toNat_stop
  rw [fragment]
  omega

theorem utf8ByteSize_fragment_le (s : Snippet) :
    s.fragment.utf8ByteSize ≤ s.length.toNat + 3 := by
  have hle := utf8ByteSize_between_le s.source s.offset_le_stop
  have hstop := s.toNat_stop
  rw [fragment]
  omega

/-- A stop that is not past the source is not clamped. -/
theorem stop_eq_add_of_le_size (hs : s.source.utf8ByteSize < Position.largest)
    (h : s.stop.toNat ≤ s.source.utf8ByteSize) :
    s.stop.toNat = s.offset.toNat + s.length.toNat := by
  have hstop := s.toNat_stop
  omega

/-- **What is read and what is asked for** differ by the roundings of the two ends. -/
theorem utf8ByteSize_fragment_add (hs : s.source.utf8ByteSize < Position.largest)
    (h : s.stop.toNat ≤ s.source.utf8ByteSize) :
    s.fragment.utf8ByteSize + (ceil s.source s.offset.toNat - s.offset.toNat) =
      s.length.toNat + (ceil s.source s.stop.toNat - s.stop.toNat) := by
  have hstop := stop_eq_add_of_le_size hs h
  have hoffset := le_ceil s.source s.offset.toNat
  have hround := le_ceil s.source s.stop.toNat
  have hmono := ceil_mono s.source s.offset_le_stop
  rw [utf8ByteSize_fragment]
  omega

/-- The rounding of the offset takes three bytes away at the most. -/
theorem length_le_utf8ByteSize_fragment_add (hs : s.source.utf8ByteSize < Position.largest)
    (h : s.stop.toNat ≤ s.source.utf8ByteSize) :
    s.length.toNat ≤ s.fragment.utf8ByteSize + 3 := by
  have hadd := utf8ByteSize_fragment_add hs h
  have hoffset := ceil_le_add_three s.source s.offset.toNat
  omega

theorem fragment_ne_empty_of_four_le (hs : s.source.utf8ByteSize < Position.largest)
    (h : s.stop.toNat ≤ s.source.utf8ByteSize) (hlength : 4 ≤ s.length.toNat) :
    s.fragment ≠ "" := by
  have hle := length_le_utf8ByteSize_fragment_add hs h
  intro hempty
  rw [hempty, String.utf8ByteSize_empty] at hle
  omega

/-- **Four bytes within the source** leave less than there was. -/
theorem rest_lt_of_four_le (hs : s.source.utf8ByteSize < Position.largest)
    (h : s.stop.toNat ≤ s.source.utf8ByteSize) (hlength : 4 ≤ s.length.toNat) :
    s.rest.utf8ByteSize < (after s.source s.offset.toNat).utf8ByteSize := by
  have hpos : s.fragment.utf8ByteSize ≠ 0 :=
    mt String.utf8ByteSize_eq_zero_iff.1 (fragment_ne_empty_of_four_le hs h hlength)
  rw [← fragment_append_rest, String.utf8ByteSize_append]
  omega

/-- **How much a snippet reads.** It has at most as many characters as it asks for bytes, and at
most three bytes more. If it stops within the source then its size is what it asks for, with what
the rounding of the stop adds and without what the rounding of the offset takes away; so it differs
by three at the most, not at all between boundaries, and from four bytes on there is something to
read: slicing goes on. -/
theorem fragment_size (s : Snippet) (hs : s.source.utf8ByteSize < Position.largest) :
    s.fragment.length ≤ s.length.toNat ∧
    s.fragment.utf8ByteSize ≤ s.length.toNat + 3 ∧
    (s.stop.toNat ≤ s.source.utf8ByteSize →
      (s.fragment.utf8ByteSize : Int) = s.length.toNat +
        (ceil s.source s.stop.toNat - s.stop.toNat) -
        (ceil s.source s.offset.toNat - s.offset.toNat) ∧
      s.length.toNat ≤ s.fragment.utf8ByteSize + 3 ∧
      (IsBoundary s.source s.offset.toNat → IsBoundary s.source s.stop.toNat →
        s.fragment.utf8ByteSize = s.length.toNat) ∧
      (4 ≤ s.length.toNat → s.fragment ≠ "" ∧
        s.rest.utf8ByteSize < (after s.source s.offset.toNat).utf8ByteSize)) ∧
    (∀ n : Position, 4 ≤ n.toNat → (s.slice n).stop.toNat ≤ s.source.utf8ByteSize →
      (s.slice n).rest.utf8ByteSize < s.rest.utf8ByteSize) := by
  refine ⟨length_fragment_le s, utf8ByteSize_fragment_le s, fun h => ?_,
    fun n hn h => rest_lt_of_four_le (s := s.slice n) hs h hn⟩
  have hadd := utf8ByteSize_fragment_add hs h
  have hoffset := le_ceil s.source s.offset.toNat
  have hle := s.offset_le_stop
  have hstop := le_ceil s.source s.stop.toNat
  refine ⟨by omega, length_le_utf8ByteSize_fragment_add hs h, fun hb hb' => ?_, fun hlength => ?_⟩
  · rw [ceil_eq_self hb, ceil_eq_self hb'] at hadd
    omega
  · exact ⟨fragment_ne_empty_of_four_le hs h hlength, rest_lt_of_four_le hs h hlength⟩

/-- Four bytes from inside a character to inside the next one read all of the next one. -/
theorem fragment_size_inside_characters :
    "😀😀".utf8ByteSize < Position.largest ∧
      (Snippet.mk "😀😀" 1 4).stop.toNat ≤ "😀😀".utf8ByteSize ∧
      (Snippet.mk "😀😀" 1 4).fragment ≠ "" ∧
      (Snippet.mk "😀😀" 1 4).rest.utf8ByteSize < (after "😀😀" 1).utf8ByteSize := by
  have hs : "😀😀".utf8ByteSize < Position.largest := by decide
  have hstop : (Snippet.mk "😀😀" 1 4).stop.toNat ≤ "😀😀".utf8ByteSize := by decide
  obtain ⟨-, -, hwithin, -⟩ := fragment_size ⟨"😀😀", 1, 4⟩ hs
  obtain ⟨-, -, -, hmore⟩ := hwithin hstop
  exact ⟨hs, hstop, hmore (by decide)⟩

-- three bytes can be too few
example : (Snippet.mk "😀😀" 1 3).fragment = "" := by decide +kernel

end Snippet

end TextCursor
