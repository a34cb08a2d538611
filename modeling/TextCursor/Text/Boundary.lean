/-!
# Character boundaries

Positions in a text count UTF-8 bytes, so a position may fall inside a character. `IsBoundary s i`
says that `s` can be cut in two at `i`; `ceil s i` is the least boundary at or past `i`, a position
past the end standing for the end.

* `ceil_le_iff`: after the clamp, `ceil` is adjoint to the inclusion of the boundaries; so it is the
  least boundary that it may be (`ceil_eq_of_least`), and before the end no clamp is needed
  (`ceil_le_iff_le`).
* `ceil_le_add_three`: a character has at most four bytes, so rounding moves by at most three.
* `ceil_append_left`, `ceil_append_right`: rounding in a concatenation is rounding in its parts.
-/

namespace TextCursor.Text

/-- That `s` can be cut in two at byte `i`. -/
def IsBoundary (s : String) (i : Nat) : Prop :=
  ∃ u v, s = u ++ v ∧ u.utf8ByteSize = i

theorem isBoundary_iff_isValid {s : String} {i : Nat} :
    IsBoundary s i ↔ String.Pos.Raw.IsValid s ⟨i⟩ := by
  simp only [IsBoundary, String.Pos.Raw.isValid_iff_exists_append, String.Pos.Raw.ext_iff,
    String.byteIdx_rawEndPos, eq_comm (a := i)]

instance (s : String) (i : Nat) : Decidable (IsBoundary s i) :=
  decidable_of_iff _ isBoundary_iff_isValid.symm

theorem IsBoundary.le {s : String} {i : Nat} (h : IsBoundary s i) : i ≤ s.utf8ByteSize := by
  obtain ⟨u, v, rfl, rfl⟩ := h
  simp

theorem isBoundary_zero (s : String) : IsBoundary s 0 := ⟨"", s, by simp, rfl⟩

theorem isBoundary_size (s : String) : IsBoundary s s.utf8ByteSize := ⟨s, "", by simp, rfl⟩

/-- The valid position of `s` that `i` is rounded forward to. -/
def ceilPos (s : String) (i : Nat) : s.Pos :=
  s.posGE ⟨min i s.utf8ByteSize⟩ (String.Pos.Raw.le_iff.2 (Nat.min_le_right ..))

/-- The least boundary at or past byte `i`, or the end of `s` if `i` is past it. -/
def ceil (s : String) (i : Nat) : Nat := (ceilPos s i).offset.byteIdx

theorem isBoundary_offset {s : String} (p : s.Pos) : IsBoundary s p.offset.byteIdx :=
  isBoundary_iff_isValid.2 p.isValid

theorem isBoundary_ceil (s : String) (i : Nat) : IsBoundary s (ceil s i) :=
  isBoundary_offset _

theorem ceil_le_size (s : String) (i : Nat) : ceil s i ≤ s.utf8ByteSize := (isBoundary_ceil s i).le

theorem le_ceil (s : String) (i : Nat) : min i s.utf8ByteSize ≤ ceil s i :=
  String.Pos.Raw.le_iff.1 (String.le_offset_posGE (s := s))

theorem ceil_le_iff {s : String} {i b : Nat} (hb : IsBoundary s b) :
    ceil s i ≤ b ↔ min i s.utf8ByteSize ≤ b := by
  have h : ceilPos s i ≤ s.pos ⟨b⟩ (isBoundary_iff_isValid.1 hb) ↔ _ := String.posGE_le_iff
  simpa [ceil, String.Pos.le_iff, String.Pos.Raw.le_iff] using h

theorem ceil_le_iff_le {s : String} {i b : Nat} (hb : IsBoundary s b) (hlt : b < s.utf8ByteSize) :
    ceil s i ≤ b ↔ i ≤ b := by
  rw [ceil_le_iff hb]
  omega

theorem ceilPos_mono (s : String) {i j : Nat} (h : i ≤ j) : ceilPos s i ≤ ceilPos s j := by
  rw [String.Pos.le_iff, String.Pos.Raw.le_iff]
  have := le_ceil s j
  exact (ceil_le_iff (isBoundary_ceil s j)).2 (by omega)

theorem ceil_mono (s : String) {i j : Nat} (h : i ≤ j) : ceil s i ≤ ceil s j :=
  String.Pos.Raw.le_iff.1 (String.Pos.le_iff.1 (ceilPos_mono s h))

theorem ceil_eq_self {s : String} {i : Nat} (h : IsBoundary s i) : ceil s i = i := by
  have h₁ := (ceil_le_iff h).2 (Nat.min_le_left i _)
  have h₂ := le_ceil s i
  have := h.le
  omega

theorem ceil_eq_self_iff {s : String} {i : Nat} : ceil s i = i ↔ IsBoundary s i :=
  ⟨fun h => h ▸ isBoundary_ceil s i, ceil_eq_self⟩

theorem ceil_of_size_le {s : String} {i : Nat} (h : s.utf8ByteSize ≤ i) :
    ceil s i = s.utf8ByteSize := by
  have h₁ := le_ceil s i
  have h₂ := ceil_le_size s i
  omega

@[simp] theorem ceil_zero (s : String) : ceil s 0 = 0 := ceil_eq_self (isBoundary_zero s)

theorem ceil_eq_of_least {s : String} {i b : Nat} (hb : IsBoundary s b)
    (hi : min i s.utf8ByteSize ≤ b)
    (hleast : ∀ c, IsBoundary s c → min i s.utf8ByteSize ≤ c → b ≤ c) : ceil s i = b :=
  Nat.le_antisymm ((ceil_le_iff hb).2 hi) (hleast _ (isBoundary_ceil s i) (le_ceil s i))

/-- Rounding moves a position by at most three bytes: the character before the boundary it reaches
starts before the position and has at most four bytes. -/
theorem ceil_le_add_three (s : String) (i : Nat) : ceil s i ≤ min i s.utf8ByteSize + 3 := by
  by_cases h : ceilPos s i = s.startPos
  · simp [ceil, h]
  · have hsplit := (ceilPos s i).splits
    obtain ⟨u, hs⟩ := hsplit.exists_eq_append_singleton_of_ne_startPos h
    generalize ((ceilPos s i).prev h).get _ = c at hs
    rw [hs] at hsplit
    have hsize : ceil s i = u.utf8ByteSize + c.utf8Size := by
      simp [ceil, hsplit.offset_eq_rawEndPos]
    have hu : IsBoundary s u.utf8ByteSize :=
      ⟨u, String.singleton c ++ (s.sliceFrom (ceilPos s i)).copy, by
        rw [← String.append_assoc]; exact hsplit.eq_append, rfl⟩
    have hle := ceil_le_iff (i := i) hu
    have := c.utf8Size_pos
    have := c.utf8Size_le_four
    omega

/-! ## Concatenation -/

theorem isBoundary_append {u w : String} {b : Nat} :
    IsBoundary (u ++ w) b ↔
      IsBoundary u b ∨ u.utf8ByteSize ≤ b ∧ IsBoundary w (b - u.utf8ByteSize) := by
  simp only [isBoundary_iff_isValid, String.Pos.Raw.isValid_append, String.Pos.Raw.le_iff,
    String.byteIdx_rawEndPos]
  rfl

theorem IsBoundary.append_left {u w : String} {b : Nat} (h : IsBoundary u b) :
    IsBoundary (u ++ w) b := isBoundary_append.2 (.inl h)

theorem IsBoundary.append_right {u w : String} {b : Nat} (h : IsBoundary w b) :
    IsBoundary (u ++ w) (u.utf8ByteSize + b) :=
  isBoundary_append.2 (.inr ⟨Nat.le_add_right .., by simpa using h⟩)

theorem ceil_append_left {u w : String} {i : Nat} (h : i ≤ u.utf8ByteSize) :
    ceil (u ++ w) i = ceil u i := by
  refine ceil_eq_of_least (isBoundary_ceil u i).append_left ?_ fun c hc hi => ?_
  · have := le_ceil u i
    simp only [String.utf8ByteSize_append]
    omega
  · rw [String.utf8ByteSize_append] at hi
    rcases isBoundary_append.1 hc with hc | ⟨hc, -⟩
    · exact (ceil_le_iff hc).2 (by omega)
    · exact Nat.le_trans (ceil_le_size u i) hc

theorem ceil_append_right (u w : String) (i : Nat) :
    ceil (u ++ w) (u.utf8ByteSize + i) = u.utf8ByteSize + ceil w i := by
  refine ceil_eq_of_least (isBoundary_ceil w i).append_right ?_ fun c hc hi => ?_
  · have := le_ceil w i
    simp only [String.utf8ByteSize_append]
    omega
  · rw [String.utf8ByteSize_append] at hi
    rcases isBoundary_append.1 hc with hc | ⟨-, hc⟩
    · have h₁ := hc.le
      have h₂ := (ceil_le_iff (i := i) (isBoundary_zero w)).2 (by omega)
      omega
    · have := (ceil_le_iff (i := i) hc).2 (by omega)
      omega

end TextCursor.Text
