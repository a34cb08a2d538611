import TextCursor.Text.Boundary

/-!
# Cutting a text at byte positions

`before s i`, `between s i j` and `after s i` cut `s` at positions that need not be boundaries: each
cut is made at the position rounded forward, so a character belongs whole to the part that holds its
first byte.

* `before_append_after`, `before_append_between`, `between_append_after`: the parts tile the text.
* `append_inj_of_size`: the size of the first part determines a cut, so `eq_after` recognises the
  second part.
* `after_append_left`: what is left of a first text is left with the second behind it;
  `after_append_right`, `between_append_right`: a cut behind a first text is the cut of the second.
-/

namespace TextCursor.Text

/-- The characters of `s` that start before byte `i`. -/
def before (s : String) (i : Nat) : String := (s.sliceTo (ceilPos s i)).copy

/-- The characters of `s` that start at byte `i` or after it. -/
def after (s : String) (i : Nat) : String := (s.sliceFrom (ceilPos s i)).copy

/-- The characters of `s` that start at byte `i` or after it, and before byte `j`. -/
def between (s : String) (i j : Nat) (h : i ≤ j) : String :=
  (s.slice (ceilPos s i) (ceilPos s j) (ceilPos_mono s h)).copy

theorem append_inj_of_size {u v u' v' : String} (h : u ++ v = u' ++ v')
    (hu : u.utf8ByteSize = u'.utf8ByteSize) : u = u' ∧ v = v' := by
  have h₁ := String.Pos.splits_ofEqAppend h
  have h₂ := String.Pos.splits_ofEqAppend (rfl : u ++ v = u ++ v)
  have hp : String.Pos.ofEqAppend h = String.Pos.ofEqAppend rfl := by
    rw [String.Pos.ext_iff, h₁.offset_eq_rawEndPos, h₂.offset_eq_rawEndPos,
      String.Pos.Raw.ext_iff]
    exact hu.symm
  rw [hp] at h₁
  exact h₂.eq h₁

@[simp] theorem before_append_after (s : String) (i : Nat) : before s i ++ after s i = s :=
  (ceilPos s i).splits.eq_append.symm

@[simp] theorem utf8ByteSize_before (s : String) (i : Nat) :
    (before s i).utf8ByteSize = ceil s i := by
  rw [ceil, (ceilPos s i).splits.offset_eq_rawEndPos, String.byteIdx_rawEndPos]
  rfl

theorem utf8ByteSize_after (s : String) (i : Nat) :
    (after s i).utf8ByteSize = s.utf8ByteSize - ceil s i := by
  have := congrArg String.utf8ByteSize (before_append_after s i)
  rw [String.utf8ByteSize_append, utf8ByteSize_before] at this
  omega

theorem eq_after {u v : String} {i : Nat} (h : u.utf8ByteSize = ceil (u ++ v) i) :
    after (u ++ v) i = v :=
  (append_inj_of_size (before_append_after _ i) (by simp [h])).2

theorem between_append_after (s : String) {i j : Nat} (h : i ≤ j) :
    between s i j h ++ after s j = after s i := by
  obtain ⟨t₁, t₂, h₁, h₂⟩ := String.copy_slice_eq_iff_splits.1 ⟨ceilPos_mono s h, rfl⟩
  rw [after, after, h₁.copy_sliceFrom_eq, h₂.copy_sliceFrom_eq, between]

theorem before_append_between (s : String) {i j : Nat} (h : i ≤ j) :
    before s i ++ between s i j h = before s j := by
  obtain ⟨t₁, t₂, h₁, h₂⟩ := String.copy_slice_eq_iff_splits.1 ⟨ceilPos_mono s h, rfl⟩
  rw [before, before, h₁.copy_sliceTo_eq, h₂.copy_sliceTo_eq, between]

theorem before_append_between_append_after (s : String) {i j : Nat} (h : i ≤ j) :
    before s i ++ between s i j h ++ after s j = s := by
  rw [before_append_between, before_append_after]

theorem utf8ByteSize_between (s : String) {i j : Nat} (h : i ≤ j) :
    (between s i j h).utf8ByteSize = ceil s j - ceil s i := by
  have := congrArg String.utf8ByteSize (before_append_between s h)
  simp only [String.utf8ByteSize_append, utf8ByteSize_before] at this
  omega

@[simp] theorem between_self (s : String) (i : Nat) : between s i i (Nat.le_refl i) = "" := by
  rw [← String.utf8ByteSize_eq_zero_iff, utf8ByteSize_between, Nat.sub_self]

theorem between_append_between (s : String) {i j k : Nat} (h₁ : i ≤ j) (h₂ : j ≤ k) :
    between s i j h₁ ++ between s j k h₂ = between s i k (Nat.le_trans h₁ h₂) := by
  apply (String.append_left_inj (after s k)).1
  rw [String.append_assoc, between_append_after, between_append_after, between_append_after]

/-- A cut depends on its positions only through the boundaries they are rounded to. -/
theorem between_congr {s : String} {i j i' j' : Nat} {h : i ≤ j} {h' : i' ≤ j'}
    (hi : ceil s i = ceil s i') (hj : ceil s j = ceil s j') :
    between s i j h = between s i' j' h' := by
  have hij := (before_append_between_append_after s h).trans
    (before_append_between_append_after s h').symm
  rw [String.append_assoc, String.append_assoc] at hij
  have hrest := (append_inj_of_size hij (by simp [hi])).2
  exact (append_inj_of_size hrest (by simp [utf8ByteSize_between, hi, hj])).1

/-- What is left depends on its position only through the boundary it is rounded to. -/
theorem after_congr {s : String} {i j : Nat} (h : ceil s i = ceil s j) : after s i = after s j := by
  have hij := (before_append_after s i).trans (before_append_after s j).symm
  exact (append_inj_of_size hij (by simp [h])).2

/-! ## Concatenation -/

theorem after_append_left {u w : String} {i : Nat} (h : i ≤ u.utf8ByteSize) :
    after (u ++ w) i = after u i ++ w := by
  have hcut := eq_after (u := before u i) (v := after u i ++ w) (i := i)
  rw [← String.append_assoc, before_append_after, utf8ByteSize_before, ceil_append_left h] at hcut
  exact hcut rfl

theorem after_append_right (u w : String) (i : Nat) :
    after (u ++ w) (u.utf8ByteSize + i) = after w i := by
  have h := eq_after (u := u ++ before w i) (v := after w i) (i := u.utf8ByteSize + i)
  rw [String.append_assoc, before_append_after, String.utf8ByteSize_append, utf8ByteSize_before,
    ceil_append_right] at h
  exact h rfl

theorem between_append_right (u w : String) {i j : Nat} (h : i ≤ j) :
    between (u ++ w) (u.utf8ByteSize + i) (u.utf8ByteSize + j) (Nat.add_le_add_left h _) =
      between w i j h := by
  apply (String.append_left_inj (after w j)).1
  rw [between_append_after, ← after_append_right u w j, between_append_after, after_append_right]

end TextCursor.Text
