import TextCursor.Tag
import TextCursor.Text.Addressable
import TextCursor.Text.Ends

/-!
# The window of a tag

A tag compares its literal with a window of as many bytes as the literal has, and each end of the
window is rounded by itself. So, for a tag tried inside a character, the window may end before the
literal does, although the rest starts with the literal.

* `ceil_add_size_eq_iff`: a window reaches the end of the literal exactly if it reaches past the
  start of the literal's last character (`ceil_eq_size_iff`).
* `between_add_size_eq_iff`: hence the window holds the literal exactly if the text goes on with it
  and the window's start is moved by less than the literal's last character is wide.
* `fragment_window`: in an `Addressable` text a clamped window holds what the exact one would, so the
  same is the criterion for a tag (`exists_run_eq_ok_iff`), and a match is `Taken`.
* `run_criterion`: all of this for `Tag.run`.
-/

namespace TextCursor

namespace Text

/-! ## The window of a literal -/

/-- A window with the size of `e` ends where `e` does, unless its start is moved too far. -/
theorem ceil_add_size_eq_iff {u e v : String} {i : Nat} (he : e ≠ "") (hi : i ≤ u.utf8ByteSize) :
    ceil (u ++ e ++ v) (i + e.utf8ByteSize) = u.utf8ByteSize + e.utf8ByteSize ↔
      u.utf8ByteSize - i < lastWidth e := by
  have hne : u ++ e ≠ "" := by simp [he]
  rw [ceil_append_left (by rw [String.utf8ByteSize_append]; omega), ← String.utf8ByteSize_append,
    ceil_eq_size_iff hne, lastWidth_append he, String.utf8ByteSize_append]
  omega

theorem ceil_add_size_eq_iff_of_after_eq {s e v : String} {i : Nat} (he : e ≠ "")
    (hv : after s i = e ++ v) :
    ceil s (i + e.utf8ByteSize) = ceil s i + e.utf8ByteSize ↔ ceil s i - i < lastWidth e := by
  have hs : before s i ++ e ++ v = s := by
    rw [String.append_assoc, ← hv, before_append_after]
  -- the text has room for `e`, so `i` is not past its end
  have hpos : e.utf8ByteSize ≠ 0 := mt String.utf8ByteSize_eq_zero_iff.1 he
  have hfit := congrArg String.utf8ByteSize hv
  rw [utf8ByteSize_after, String.utf8ByteSize_append] at hfit
  have hle := le_ceil s i
  have h := ceil_add_size_eq_iff (u := before s i) (v := v) (i := i) he
    (by rw [utf8ByteSize_before]; omega)
  rwa [hs, utf8ByteSize_before] at h

/-- **When the window holds the literal**: the text goes on with it from the rounded start, and the
start is moved by less than the literal's last character is wide. -/
theorem between_add_size_eq_iff {s e : String} {i : Nat} :
    between s i (i + e.utf8ByteSize) (Nat.le_add_right ..) = e ↔
      e = "" ∨ (after s i).startsWith e = true ∧ ceil s i - i < lastWidth e := by
  by_cases he : e = ""
  · subst he
    simp
  have hsize := utf8ByteSize_between s (Nat.le_add_right i e.utf8ByteSize)
  have hrest := between_append_after s (Nat.le_add_right i e.utf8ByteSize)
  have hmono := ceil_mono s (Nat.le_add_right i e.utf8ByteSize)
  rw [or_iff_right he, startsWith_iff_exists]
  refine ⟨fun h => ?_, fun h => ?_⟩
  · rw [h] at hrest hsize
    have hend : ceil s (i + e.utf8ByteSize) = ceil s i + e.utf8ByteSize := by omega
    exact ⟨⟨_, hrest.symm⟩, (ceil_add_size_eq_iff_of_after_eq he hrest.symm).1 hend⟩
  · obtain ⟨⟨v, hv⟩, hd⟩ := h
    have hend := (ceil_add_size_eq_iff_of_after_eq he hv).2 hd
    rw [hv] at hrest
    exact (append_inj_of_size hrest (by omega)).1

end Text

open Text

/-! ## Tags -/

namespace Snippet

theorem skew_eq_zero_iff {s : Snippet} :
    s.skew = 0 ↔ IsBoundary s.source s.stop.toNat ∨ s.source.utf8ByteSize ≤ s.stop.toNat := by
  unfold skew
  refine ⟨fun h => ?_, fun h => ?_⟩
  · have hle := le_ceil s.source s.stop.toNat
    by_cases hlt : s.stop.toNat < s.source.utf8ByteSize
    · left
      rw [show s.stop.toNat = ceil s.source s.stop.toNat by omega]
      exact isBoundary_ceil ..
    · exact .inr (Nat.not_lt.1 hlt)
  · rcases h with h | h
    · rw [ceil_eq_self h, Nat.sub_self]
    · rw [ceil_of_size_le h]
      omega

end Snippet

namespace Tag

variable {t : Tag} {s s' : Snippet}

theorem toNat_stop_window (t : Tag) (s : Snippet) :
    (t.window s).stop.toNat =
      min (s.stop.toNat + t.expected.utf8ByteSize) Position.largest := by
  rw [window, Snippet.toNat_stop_slice, width, Position.toNat_clamp]
  omega

theorem ceil_stop_window (t : Tag) (hs : Addressable s.source) :
    ceil s.source (t.window s).stop.toNat =
      ceil s.source (s.stop.toNat + t.expected.utf8ByteSize) := by
  rw [toNat_stop_window, ceil_min_largest hs]

theorem fragment_window (t : Tag) (hs : Addressable s.source) :
    (t.window s).fragment =
      between s.source s.stop.toNat (s.stop.toNat + t.expected.utf8ByteSize)
        (Nat.le_add_right ..) := by
  change between s.source s.stop.toNat (t.window s).stop.toNat _ = _
  exact between_congr rfl (ceil_stop_window t hs)

/-- `s'` covers the literal of `t` in the text after `s`. -/
structure Taken (t : Tag) (s s' : Snippet) : Prop where
  source : s'.source = s.source
  offset : s'.offset = s.stop
  length : s'.length.toNat = t.expected.utf8ByteSize
  fragment : s'.fragment = t.expected
  rest : s.rest = t.expected ++ s'.rest
  ceil_stop : ceil s'.source s'.stop.toNat =
    ceil s.source s.stop.toNat + t.expected.utf8ByteSize

theorem taken_of_run_eq_ok (hs : Addressable s.source) (h : t.run s = .ok s') : t.Taken s s' := by
  have hrest := rest_of_run_eq_ok h
  obtain ⟨hf, rfl⟩ := run_eq_ok_iff.1 h
  have hsize := congrArg String.utf8ByteSize (fragment_window t hs)
  rw [hf, utf8ByteSize_between, ← ceil_stop_window t hs] at hsize
  have hmono : ceil s.source s.stop.toNat ≤ ceil s.source (t.window s).stop.toNat :=
    ceil_mono _ (t.window s).offset_le_stop
  have hle := ceil_le_size s.source (t.window s).stop.toNat
  refine ⟨rfl, rfl, ?_, hf, hrest, ?_⟩
  · unfold Addressable at hs
    simp only [window, Snippet.length_slice, width, Position.toNat_clamp]
    omega
  · change ceil s.source (t.window s).stop.toNat = _
    omega

/-- From a boundary, a match moves to a boundary and its stop is not clamped. -/
theorem stop_of_run_eq_ok (hs : Addressable s.source) (hb : IsBoundary s.source s.stop.toNat)
    (h : t.run s = .ok s') :
    s'.stop.toNat = s.stop.toNat + t.expected.utf8ByteSize ∧
      IsBoundary s'.source s'.stop.toNat := by
  have htaken := taken_of_run_eq_ok hs h
  have hceil := htaken.ceil_stop
  rw [ceil_eq_self hb] at hceil
  have hle := ceil_le_size s'.source s'.stop.toNat
  rw [htaken.source] at hle hceil
  unfold Addressable at hs
  have hstop : s'.stop.toNat = s.stop.toNat + t.expected.utf8ByteSize := by
    rw [(run_eq_ok_iff.1 h).2, toNat_stop_window]
    omega
  refine ⟨hstop, ?_⟩
  rw [htaken.source, hstop, ← hceil]
  exact isBoundary_ceil ..

/-- **When a tag matches.** -/
theorem exists_run_eq_ok_iff (hs : Addressable s.source) :
    (∃ s', t.run s = .ok s') ↔
      t.expected = "" ∨ s.rest.startsWith t.expected = true ∧ s.skew < lastWidth t.expected := by
  simp only [run_eq_ok_iff, exists_and_left, exists_eq, and_true, fragment_window t hs]
  exact between_add_size_eq_iff

/-- Where a character starts, or past the end, a tag matches what the rest starts with. -/
theorem exists_run_eq_ok_iff_startsWith (hs : Addressable s.source) (h : s.skew = 0) :
    (∃ s', t.run s = .ok s') ↔ s.rest.startsWith t.expected = true := by
  rw [exists_run_eq_ok_iff hs, h, and_iff_left (lastWidth_pos _)]
  refine or_iff_right_of_imp fun he => ?_
  rw [he]
  exact String.startsWith_string_empty

/-- At a boundary a tag matches what the rest starts with, and stops at a boundary. -/
theorem exists_run_eq_ok_of_startsWith (hs : Addressable s.source)
    (hb : IsBoundary s.source s.stop.toNat) (h : s.rest.startsWith t.expected = true) :
    ∃ s', t.run s = .ok s' ∧ s'.stop.toNat = s.stop.toNat + t.expected.utf8ByteSize ∧
      IsBoundary s'.source s'.stop.toNat := by
  have hskew : s.skew = 0 := Snippet.skew_eq_zero_iff.2 (.inl hb)
  obtain ⟨s', hs'⟩ := (exists_run_eq_ok_iff_startsWith hs hskew).2 h
  exact ⟨s', hs', stop_of_run_eq_ok hs hb hs'⟩

theorem run_eq_error_of_not_exists (h : ¬∃ s', t.run s = .ok s') : t.run s = .error ⟨s, .tag⟩ := by
  refine run_eq_error_iff.2 ⟨fun hf => h ⟨_, run_eq_ok_iff.2 ⟨hf, rfl⟩⟩, rfl⟩

/-- **What a tag does, at every position.** It matches exactly if its literal is empty, or the rest
starts with the literal and the skew is less than the literal's last character is wide; a match
covers the literal, and any other outcome is a failure where the tag was tried. -/
theorem run_criterion (t : Tag) (s : Snippet) (hs : Addressable s.source) :
    ((∃ s', t.run s = .ok s') ↔
      t.expected = "" ∨ s.rest.startsWith t.expected = true ∧ s.skew < lastWidth t.expected) ∧
    (∀ s', t.run s = .ok s' → t.Taken s s') ∧
    ((¬∃ s', t.run s = .ok s') → t.run s = .error ⟨s, .tag⟩) ∧
    (IsBoundary s.source s.stop.toNat ∨ s.source.utf8ByteSize ≤ s.stop.toNat →
      ((∃ s', t.run s = .ok s') ↔ s.rest.startsWith t.expected = true)) := by
  refine ⟨exists_run_eq_ok_iff hs, fun s' h => taken_of_run_eq_ok hs h,
    run_eq_error_of_not_exists, fun h => ?_⟩
  exact exists_run_eq_ok_iff_startsWith hs (Snippet.skew_eq_zero_iff.2 h)

/-- One byte before the end of a character, a two-byte literal is found and a one-byte literal is
not, though each of them is all that is left. -/
theorem run_criterion_inside_character :
    Addressable "€é" ∧ Addressable "€x" ∧
      (∃ s', (Tag.mk "é").run ⟨"€é", 0, 2⟩ = .ok s') ∧
      (Tag.mk "x").run ⟨"€x", 0, 2⟩ = .error ⟨⟨"€x", 0, 2⟩, .tag⟩ := by
  have h₁ : Addressable "€é" := by decide
  have h₂ : Addressable "€x" := by decide
  refine ⟨h₁, h₂, ?_, ?_⟩
  · exact (run_criterion ⟨"é"⟩ ⟨"€é", 0, 2⟩ h₁).1.2 (by decide +kernel)
  · have h := run_criterion ⟨"x"⟩ ⟨"€x", 0, 2⟩ h₂
    exact h.2.2.1 (mt h.1.1 (by decide +kernel))

end Tag

end TextCursor
