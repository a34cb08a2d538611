import TextCursor.Position
import TextCursor.Text.Boundary

/-!
# Addressable texts

A text is addressable if each of its bytes has a position. Then a position is clamped only past the
end of the text, where all positions are rounded to the end: so clamping is not seen in what a
position is rounded to (`ceil_min_largest`), nor is clamping the start of a sum
(`ceil_min_largest_add`).
-/

namespace TextCursor.Text

/-- Every byte of `s` has a position, and so has its end. A text in memory is addressable: it has
fewer than `2 ^ 63` bytes. -/
def Addressable (s : String) : Prop := s.utf8ByteSize ≤ Position.largest

instance (s : String) : Decidable (Addressable s) :=
  inferInstanceAs (Decidable (s.utf8ByteSize ≤ Position.largest))

/-- The clamped position and the exact one are both past the end, or they are equal. -/
theorem ceil_min_largest {s : String} (hs : Addressable s) (i : Nat) :
    ceil s (min i Position.largest) = ceil s i := by
  rcases Nat.le_total i Position.largest with h | h
  · rw [Nat.min_eq_left h]
  · rw [Nat.min_eq_right h, ceil_of_size_le hs, ceil_of_size_le (Nat.le_trans hs h)]

/-- A sum with a clamped position and the exact sum are both past the end, or they are equal. -/
theorem ceil_min_largest_add {s : String} (hs : Addressable s) (i n : Nat) :
    ceil s (min i Position.largest + n) = ceil s (i + n) := by
  rcases Nat.le_total i Position.largest with h | h
  · rw [Nat.min_eq_left h]
  · unfold Addressable at hs
    rw [Nat.min_eq_right h, ceil_of_size_le (Nat.le_add_right_of_le hs),
      ceil_of_size_le (by omega)]

theorem Addressable.of_append {u v : String} (h : Addressable (u ++ v)) : Addressable u := by
  unfold Addressable at *
  rw [String.utf8ByteSize_append] at h
  omega

end TextCursor.Text
