import TextCursor.Snippet

/-!
# The characters of a snippet

`charsWhere s p` keeps the characters of `s` whose first byte satisfies `p`, and `slice? s i j` reads
the bytes from `i` to `j` if these bytes are a text. What a snippet reads is given by either.

* `slice?_eq_some_iff`: reading succeeds exactly with the middle of a cut in three at `i` and `j`.
* `charsWhere_cut`: the characters of the middle part are those with their first byte in it.
* `charsWhere_between`: rounding moves a position across no character's first byte
  (`ceil_le_iff_le`), so the rounded cut selects by the positions as they were.
* `fragment_rest_characters`: the fragment and the rest, as characters and as bytes.
-/

namespace TextCursor

namespace Text

/-! ## Reading bytes -/

/-- The bytes of `s` from `i` to `j`, if the two are boundaries in order; else they are no text. -/
def slice? (s : String) (i j : Nat) : Option String :=
  if h : i ≤ j ∧ IsBoundary s i ∧ IsBoundary s j then
    some (s.slice (s.pos ⟨i⟩ (isBoundary_iff_isValid.1 h.2.1))
      (s.pos ⟨j⟩ (isBoundary_iff_isValid.1 h.2.2)) (String.Pos.le_iff.2 h.1)).copy
  else none

theorem slice?_eq_some_iff {s t : String} {i j : Nat} :
    slice? s i j = some t ↔
      ∃ u w, s = u ++ t ++ w ∧ u.utf8ByteSize = i ∧ (u ++ t).utf8ByteSize = j := by
  unfold slice?
  refine ⟨fun h => ?_, fun h => ?_⟩
  · split at h
    · obtain ⟨u, w, hu, hw⟩ := String.copy_slice_eq_iff_splits.1 ⟨_, Option.some.inj h⟩
      refine ⟨u, w, hw.eq_append, ?_, ?_⟩
      · simpa using congrArg String.Pos.Raw.byteIdx hu.offset_eq_rawEndPos.symm
      · simpa using congrArg String.Pos.Raw.byteIdx hw.offset_eq_rawEndPos.symm
    · cases h
  · obtain ⟨u, w, rfl, rfl, rfl⟩ := h
    have hi : IsBoundary (u ++ t ++ w) u.utf8ByteSize := ⟨u, t ++ w, String.append_assoc .., rfl⟩
    have hj : IsBoundary (u ++ t ++ w) (u ++ t).utf8ByteSize := ⟨u ++ t, w, rfl, rfl⟩
    have hij : u.utf8ByteSize ≤ (u ++ t).utf8ByteSize := by simp
    rw [dif_pos ⟨hij, hi, hj⟩, Option.some.injEq]
    have ht : ∃ h, ((u ++ t ++ w).slice ((u ++ t ++ w).pos ⟨_⟩ (isBoundary_iff_isValid.1 hi))
        ((u ++ t ++ w).pos ⟨_⟩ (isBoundary_iff_isValid.1 hj)) h).copy = t :=
      String.copy_slice_eq_iff_splits.2 ⟨u, w, ⟨String.append_assoc .., rfl⟩, ⟨rfl, rfl⟩⟩
    obtain ⟨_, ht⟩ := ht
    exact ht

theorem slice?_between (s : String) {i j : Nat} (h : i ≤ j) :
    slice? s (ceil s i) (ceil s j) = some (between s i j h) := by
  refine slice?_eq_some_iff.2 ⟨before s i, after s j, ?_, utf8ByteSize_before s i, ?_⟩
  · exact (before_append_between_append_after s h).symm
  · rw [before_append_between, utf8ByteSize_before]

theorem slice?_after (s : String) (i : Nat) :
    slice? s (ceil s i) s.utf8ByteSize = some (after s i) := by
  refine slice?_eq_some_iff.2 ⟨before s i, "", ?_, utf8ByteSize_before s i, ?_⟩
  · rw [before_append_after, String.append_empty]
  · rw [before_append_after]

/-! ## Selecting characters -/

/-- Each character with its first byte, if the first character starts at byte `b`. -/
def withBytes : Nat → List Char → List (Nat × Char)
  | _, [] => []
  | b, c :: cs => (b, c) :: withBytes (b + c.utf8Size) cs

/-- The characters of `s` whose first byte satisfies `p`, in order. -/
def charsWhere (s : String) (p : Nat → Prop) [DecidablePred p] : String :=
  .ofList (((withBytes 0 s.toList).filter fun x => p x.1).map Prod.snd)

theorem map_snd_withBytes (b : Nat) (cs : List Char) : (withBytes b cs).map Prod.snd = cs := by
  induction cs generalizing b with
  | nil => rfl
  | cons c cs ih => rw [withBytes, List.map_cons, ih]

theorem withBytes_append (b : Nat) (u v : String) :
    withBytes b (u ++ v).toList =
      withBytes b u.toList ++ withBytes (b + u.utf8ByteSize) v.toList := by
  rw [String.toList_append]
  obtain ⟨cs, rfl⟩ : ∃ cs, u = .ofList cs := ⟨u.toList, by simp⟩
  rw [String.toList_ofList]
  induction cs generalizing b with
  | nil => simp [withBytes]
  | cons c cs ih =>
    rw [List.cons_append, withBytes, withBytes, ih, String.ofList_cons, String.utf8ByteSize_append,
      String.utf8ByteSize_singleton, Nat.add_assoc, List.cons_append]

/-- Every first byte is in the text, and the text can be cut there. -/
theorem first_of_mem_withBytes {s : String} {b : Nat} {x : Nat × Char}
    (h : x ∈ withBytes b s.toList) :
    ∃ i, x.1 = b + i ∧ IsBoundary s i ∧ i < s.utf8ByteSize := by
  obtain ⟨cs, rfl⟩ : ∃ cs, s = .ofList cs := ⟨s.toList, by simp⟩
  rw [String.toList_ofList] at h
  induction cs generalizing b with
  | nil => cases h
  | cons c cs ih =>
    have hc := c.utf8Size_pos
    rw [withBytes, List.mem_cons] at h
    rw [String.ofList_cons, String.utf8ByteSize_append, String.utf8ByteSize_singleton]
    rcases h with rfl | h
    · exact ⟨0, rfl, isBoundary_zero _, by omega⟩
    · obtain ⟨i, hx, hi, hlt⟩ := ih h
      refine ⟨c.utf8Size + i, by omega, ?_, by omega⟩
      rw [← String.utf8ByteSize_singleton]
      exact hi.append_right

/-- A selection is decided by the boundaries before the end. -/
theorem charsWhere_congr {s : String} {p q : Nat → Prop} [DecidablePred p] [DecidablePred q]
    (h : ∀ b, IsBoundary s b → b < s.utf8ByteSize → (p b ↔ q b)) :
    charsWhere s p = charsWhere s q := by
  unfold charsWhere
  rw [List.filter_congr]
  intro x hx
  obtain ⟨i, hi, hb, hlt⟩ := first_of_mem_withBytes hx
  rw [Nat.zero_add] at hi
  rw [hi, decide_eq_decide]
  exact h i hb hlt

theorem charsWhere_cut (u v w : String) :
    charsWhere (u ++ v ++ w)
      (fun b => u.utf8ByteSize ≤ b ∧ b < u.utf8ByteSize + v.utf8ByteSize) = v := by
  unfold charsWhere
  rw [withBytes_append, withBytes_append, List.filter_append, List.filter_append,
    List.filter_eq_nil_iff.2, List.filter_eq_self.2, List.filter_eq_nil_iff.2, List.nil_append,
    List.append_nil, map_snd_withBytes, String.ofList_toList]
  -- the part after, the part itself, the part before
  · intro x hx
    obtain ⟨i, hi, -, -⟩ := first_of_mem_withBytes hx
    rw [String.utf8ByteSize_append] at hi
    simp only [decide_eq_true_eq]
    omega
  · intro x hx
    obtain ⟨i, hi, -, hlt⟩ := first_of_mem_withBytes hx
    simp only [decide_eq_true_eq]
    omega
  · intro x hx
    obtain ⟨i, hi, -, hlt⟩ := first_of_mem_withBytes hx
    simp only [decide_eq_true_eq]
    omega

theorem charsWhere_between (s : String) {i j : Nat} (h : i ≤ j) :
    charsWhere s (fun b => i ≤ b ∧ b < j) = between s i j h := by
  have hcut := charsWhere_cut (before s i) (between s i j h) (after s j)
  have hmono := ceil_mono s h
  rw [before_append_between_append_after, utf8ByteSize_before, utf8ByteSize_between,
    Nat.add_sub_cancel' hmono] at hcut
  rw [← hcut]
  refine charsWhere_congr fun b hb hlt => ?_
  rw [ceil_le_iff_le hb hlt, ← Nat.not_le, ← Nat.not_le, ceil_le_iff_le hb hlt]

theorem charsWhere_before (s : String) (i : Nat) :
    charsWhere s (fun b => b < i) = before s i := by
  have hcut := charsWhere_cut "" (before s i) (after s i)
  rw [String.empty_append, before_append_after, utf8ByteSize_before] at hcut
  rw [← hcut]
  refine charsWhere_congr fun b hb hlt => ?_
  have := ceil_le_iff_le (i := i) hb hlt
  simp only [String.utf8ByteSize_empty]
  omega

theorem charsWhere_after (s : String) (i : Nat) :
    charsWhere s (fun b => i ≤ b) = after s i := by
  have hcut := charsWhere_cut (before s i) (after s i) ""
  rw [String.append_empty, before_append_after, utf8ByteSize_before, utf8ByteSize_after] at hcut
  rw [← hcut]
  refine charsWhere_congr fun b hb hlt => ?_
  rw [ceil_le_iff_le hb hlt]
  omega

end Text

namespace Snippet

open Text

theorem sliceAll_input (s : Snippet) : (input s.source).sliceAll [s.offset, s.length] = s := by
  have hstop : ((input s.source).slice s.offset).stop = s.offset := by
    apply UInt64.toNat_inj.1
    have := Position.toNat_le_largest s.offset
    rw [toNat_stop_slice, stop_input, UInt64.toNat_zero]
    omega
  rw [sliceAll_cons, sliceAll_cons, sliceAll_nil, slice, hstop, source_slice, source_input]

/-- **What a snippet reads.** Its fragment has the characters that start from its offset on and
before its stop, and its rest those that start from the stop on; they make up the source with the
characters that start before the offset. Both are read between boundaries in order. -/
theorem fragment_rest_characters (s : Snippet) :
    (input s.source).sliceAll [s.offset, s.length] = s ∧
    slice? s.source (ceil s.source s.offset.toNat) (ceil s.source s.stop.toNat) =
      some s.fragment ∧
    slice? s.source (ceil s.source s.stop.toNat) s.source.utf8ByteSize = some s.rest ∧
    s.fragment = charsWhere s.source (fun b => s.offset.toNat ≤ b ∧ b < s.stop.toNat) ∧
    s.rest = charsWhere s.source (fun b => s.stop.toNat ≤ b) ∧
    s.source = charsWhere s.source (fun b => b < s.offset.toNat) ++ s.fragment ++ s.rest ∧
    toString s = s.fragment := by
  refine ⟨sliceAll_input s, slice?_between s.source s.offset_le_stop, slice?_after .., ?_, ?_, ?_,
    rfl⟩
  · exact (charsWhere_between s.source s.offset_le_stop).symm
  · exact (charsWhere_after ..).symm
  · rw [charsWhere_before]
    exact (before_append_between_append_after s.source s.offset_le_stop).symm

end Snippet

end TextCursor
