import TextCursor.Text.Cut

/-!
# The ends of a text

What a text starts with, and where its last character begins. No boundary lies inside the last
character, so a position past its first byte is rounded to the end of the text.

* `startsWith_iff_exists`: a text starts with another if it is that one with something behind it;
  the other lemmas on `startsWith` are about texts put together.
* `lastWidth_append`: the last character is that of the last part that is not empty.
* `ceil_eq_size_iff`: rounding reaches the end of a text exactly from past the start of its last
  character.
* `ceil_eq_iff`: the bytes that are rounded to a boundary are those of the character before it.
-/

namespace TextCursor.Text

/-! ## What a text starts with -/

theorem startsWith_iff_exists {s e : String} : s.startsWith e = true ↔ ∃ v, s = e ++ v := by
  rw [String.startsWith_string_iff]
  refine ⟨fun h => ?_, fun h => ?_⟩
  · obtain ⟨l, hl⟩ := h
    exact ⟨.ofList l, String.toList_injective (by simp [hl])⟩
  · obtain ⟨v, rfl⟩ := h
    simp

/-- The same text may be taken off the front of both. -/
theorem startsWith_append_iff {e v w : String} :
    (e ++ v).startsWith (e ++ w) = true ↔ v.startsWith w = true := by
  simp only [String.startsWith_string_iff, String.toList_append, List.prefix_append_right_inj]

theorem startsWith_of_append {s e w : String} (h : s.startsWith (e ++ w) = true) :
    s.startsWith e = true := by
  obtain ⟨v, rfl⟩ := startsWith_iff_exists.1 h
  exact startsWith_iff_exists.2 ⟨w ++ v, String.append_assoc ..⟩

theorem startsWith_append {u e : String} (v : String) (h : u.startsWith e = true) :
    (u ++ v).startsWith e = true := by
  obtain ⟨w, rfl⟩ := startsWith_iff_exists.1 h
  exact startsWith_iff_exists.2 ⟨w ++ v, String.append_assoc ..⟩

/-- What a text starts with is in its first part, or goes on after it. -/
theorem startsWith_or_of_startsWith_append {u v e : String} (h : (u ++ v).startsWith e = true) :
    u.startsWith e = true ∨ ∃ w, w ≠ "" ∧ e = u ++ w := by
  rw [String.startsWith_string_iff, String.toList_append] at h
  rcases List.prefix_or_prefix_of_prefix h (List.prefix_append ..) with hu | ⟨l, hl⟩
  · exact .inl (String.startsWith_string_iff.2 hu)
  · have he : e = u ++ .ofList l := String.toList_injective (by simp [hl])
    by_cases hw : String.ofList l = ""
    · left
      rw [he, hw]
      exact startsWith_iff_exists.2 ⟨"", by simp⟩
    · exact .inr ⟨_, hw, he⟩

/-! ## The last character -/

/-- The size of the last character of `s`, and 1 for the empty text. -/
def lastWidth (s : String) : Nat := (s.toList.getLast?.map Char.utf8Size).getD 1

theorem eq_append_singleton_of_ne_empty {e : String} (he : e ≠ "") :
    ∃ u c, e = u ++ String.singleton c := by
  have hne : e.toList ≠ [] := by simpa using he
  refine ⟨.ofList e.toList.dropLast, e.toList.getLast hne, String.toList_injective ?_⟩
  simp [List.dropLast_concat_getLast hne]

theorem lastWidth_append {u e : String} (he : e ≠ "") : lastWidth (u ++ e) = lastWidth e := by
  have hne : e.toList ≠ [] := by simpa using he
  simp [lastWidth, List.getLast?_append, List.getLast?_eq_some_getLast hne]

theorem lastWidth_singleton (c : Char) : lastWidth (String.singleton c) = c.utf8Size := by
  simp [lastWidth]

theorem lastWidth_pos (e : String) : 0 < lastWidth e := by
  unfold lastWidth
  cases e.toList.getLast? with
  | none => exact Nat.one_pos
  | some c => exact c.utf8Size_pos

/-- The last character of a text is in the text. -/
theorem lastWidth_le (u : String) : lastWidth u ≤ u.utf8ByteSize + 1 := by
  by_cases hu : u = ""
  · subst hu
    exact Nat.le_refl 1
  · obtain ⟨v, c, rfl⟩ := eq_append_singleton_of_ne_empty hu
    rw [lastWidth_append (by simp), lastWidth_singleton, String.utf8ByteSize_append,
      String.utf8ByteSize_singleton]
    omega

theorem lastWidth_eq_one {u : String} {c : Char} (hc : u.toList.getLast? = some c)
    (hascii : c.toNat < 128) : lastWidth u = 1 := by
  have hval : c.val ≤ 127 := UInt32.le_iff_toNat_le.2 (Nat.le_of_lt_succ hascii)
  rw [lastWidth, hc]
  exact if_pos hval

/-! ## Rounding to an end -/

/-- A character cannot be cut. -/
theorem isBoundary_singleton {c : Char} {b : Nat} (h : IsBoundary (String.singleton c) b) :
    b = 0 ∨ b = c.utf8Size := by
  obtain ⟨u, v, huv, rfl⟩ := h
  have hl := congrArg String.toList huv
  rw [String.toList_singleton, String.toList_append, eq_comm, List.append_eq_singleton_iff] at hl
  rcases hl with ⟨hu, -⟩ | ⟨hu, -⟩
  · rw [String.toList_eq_nil_iff.1 hu]
    exact .inl rfl
  · rw [show u = String.singleton c from String.toList_injective (by simp [hu])]
    exact .inr String.utf8ByteSize_singleton

theorem ceil_eq_size_iff {e : String} {i : Nat} (he : e ≠ "") :
    ceil e i = e.utf8ByteSize ↔ e.utf8ByteSize < i + lastWidth e := by
  obtain ⟨u, c, rfl⟩ := eq_append_singleton_of_ne_empty he
  have hc := c.utf8Size_pos
  rw [lastWidth_append (by simp), lastWidth_singleton, String.utf8ByteSize_append,
    String.utf8ByteSize_singleton]
  have hu : IsBoundary (u ++ String.singleton c) u.utf8ByteSize := (isBoundary_size u).append_left
  have hle := ceil_le_iff (i := i) hu
  rw [String.utf8ByteSize_append, String.utf8ByteSize_singleton] at hle
  -- no boundary lies inside the last character
  rcases isBoundary_append.1 (isBoundary_ceil (u ++ String.singleton c) i) with h | ⟨h, h'⟩
  · have := h.le
    omega
  · rcases isBoundary_singleton h' with h0 | h1
    · omega
    · omega

/-- A position is rounded to a boundary exactly from inside the character that ends there. -/
theorem ceil_eq_iff {s : String} {p i : Nat} (hp : IsBoundary s p) (hi : i ≤ p) :
    ceil s i = p ↔ p < i + lastWidth (before s p) := by
  have hsize : (before s p).utf8ByteSize = p := (utf8ByteSize_before s p).trans (ceil_eq_self hp)
  by_cases hu : before s p = ""
  · rw [hu, String.utf8ByteSize_empty] at hsize
    subst hsize
    have := lastWidth_pos (before s 0)
    rw [Nat.le_zero.1 hi, ceil_zero]
    omega
  · have hceil : ceil s i = ceil (before s p) i := by
      conv => lhs; rw [← before_append_after s p]
      exact ceil_append_left (by rw [hsize]; exact hi)
    have hlast := ceil_eq_size_iff (i := i) hu
    rw [hsize] at hlast
    rw [hceil, hlast]

end TextCursor.Text
