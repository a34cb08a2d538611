import TextCursor.Exact
import TextCursor.Proofs.Lockstep
import TextCursor.Proofs.Window

/-!
# Clamping cannot be read

A run of clamped snippets is compared with the run of exact ones over the same steps. A position is
clamped only past the end of an addressable text, where the clamped position and the exact one are
rounded to the same boundary, so the two runs read the same text.

* `Clamps`: the invariant. The clamped snippet has the exact one's length, and its offset clamped.
* `Clamps.mirrors`: hence its stop, its texts and whether it is at the end.
* `Clamps.slice`, `Clamps.step`: a step keeps the invariant, and matches or fails on both sides.
* `parse_mirrors_exact`: the same of a whole run.
-/

namespace TextCursor

open Text

/-! ## Clamped and exact snippets -/

/-- `s` is `x` with its offset clamped, in an addressable text. -/
structure Clamps (s : Snippet) (x : Exact.Snippet) : Prop where
  source : s.source = x.source
  offset : s.offset.toNat = min x.offset Position.largest
  length : s.length.toNat = x.length
  addressable : Addressable x.source

/-- All that can be read of `s` is what can be read of `x`, its positions clamped. -/
structure Mirrors (s : Snippet) (x : Exact.Snippet) : Prop where
  source : s.source = x.source
  offset : s.offset.toNat = min x.offset Position.largest
  stop : s.stop.toNat = min x.stop Position.largest
  length : s.length.toNat = x.length
  fragment : s.fragment = x.fragment
  rest : s.rest = x.rest
  atEnd : s.atEnd = x.atEnd

theorem clamps_input {source : String} (hs : Addressable source) :
    Clamps (.input source) (.input source) :=
  ⟨rfl, (Nat.zero_min _).symm, rfl, hs⟩

namespace Clamps

variable {s : Snippet} {x : Exact.Snippet}

theorem stop (h : Clamps s x) : s.stop.toNat = min x.stop Position.largest := by
  have hlength := h.length
  have hoffset := h.offset
  rw [Snippet.toNat_stop, Exact.Snippet.stop]
  omega

theorem ceil_stop (h : Clamps s x) : ceil x.source s.stop.toNat = ceil x.source x.stop := by
  rw [h.stop, ceil_min_largest h.addressable]

theorem mirrors (h : Clamps s x) : Mirrors s x := by
  have hoffset : ceil x.source s.offset.toNat = ceil x.source x.offset := by
    rw [h.offset, ceil_min_largest h.addressable]
  have hfragment : s.fragment = x.fragment :=
    (Snippet.fragment_of_source_eq h.source).trans (between_congr hoffset h.ceil_stop)
  have hrest : s.rest = x.rest := by
    rw [Snippet.rest, h.source]
    exact after_congr h.ceil_stop
  refine ⟨h.source, h.offset, h.stop, h.length, hfragment, hrest, ?_⟩
  rw [Snippet.atEnd, hrest]
  rfl

theorem slice (h : Clamps s x) {n : Position} {m : Nat} (hn : n.toNat = m) :
    Clamps (s.slice n) (x.slice m) := by
  refine ⟨h.source, ?_, hn, h.addressable⟩
  rw [Snippet.offset_slice, h.stop]
  rfl

/-- The windows have the same text also if the literal is longer than any length. -/
theorem fragment_window (h : Clamps s x) (t : Tag) :
    (t.window s).fragment = (x.slice t.expected.utf8ByteSize).fragment := by
  have hend : ceil x.source (t.window s).stop.toNat =
      ceil x.source (x.stop + t.expected.utf8ByteSize) := by
    rw [Tag.toNat_stop_window, h.stop, ceil_min_largest h.addressable,
      ceil_min_largest_add h.addressable]
  rw [Snippet.fragment_of_source_eq (s := t.window s) h.source]
  exact between_congr h.ceil_stop hend

/-- **One step**: both snippets take it, or both fail where they stand. -/
theorem step (st : Step) (h : Clamps s x) :
    Run.Agree Clamps (fun f y => Clamps f.snippet y ∧ f.reason = .tag) (st.run s)
      (Exact.step st x) := by
  cases st with
  | slice n => exact .ok (h.slice rfl)
  | tag t =>
    have hwindow := h.fragment_window t
    show Run.Agree _ _ (t.run s) _
    by_cases hm : (t.window s).fragment = t.expected
    · have hrun : t.run s = .ok (t.window s) := Tag.run_eq_ok_iff.2 ⟨hm, rfl⟩
      have hexact : Exact.step (.tag t) x = .ok (x.slice t.expected.utf8ByteSize) :=
        if_pos (hwindow ▸ hm)
      -- a literal that matches is not longer than the text, so its width is not clamped
      have hlength := (Tag.taken_of_run_eq_ok (h.source ▸ h.addressable) hrun).length
      rw [hrun, hexact]
      exact .ok (h.slice hlength)
    · have hrun : t.run s = .error ⟨s, .tag⟩ := Tag.run_eq_error_iff.2 ⟨hm, rfl⟩
      have hexact : Exact.step (.tag t) x = .error x := if_neg (hwindow ▸ hm)
      rw [hrun, hexact]
      exact .error ⟨h, rfl⟩

end Clamps

/-! ## Runs -/

/-- Where a step of any width would stop: the sum is clamped, and rounding it stays a position. -/
theorem Snippet.stop_slice_in_range {s : Snippet} (hs : Addressable s.source) (n : Position) :
    (s.slice n).stop.toNat =
        min (s.offset.toNat + s.length.toNat + n.toNat) Position.largest ∧
      ceil s.source (s.slice n).stop.toNat ≤ Position.largest := by
  refine ⟨?_, Nat.le_trans (ceil_le_size ..) hs⟩
  rw [toNat_stop_slice, toNat_stop]
  omega

/-- **A run cannot tell clamped positions from exact ones.** Both runs succeed, or both fail at the
same step; the snippets read the same at every step, and no step leaves the range of positions. -/
theorem parse_mirrors_exact (source : String) (steps : Chain) (hs : Addressable source) :
    List.Forall₂ Mirrors (steps.trail (.input source)) (Exact.trail steps (.input source)) ∧
    Run.Agree Mirrors
      (fun f x => Mirrors f.snippet x ∧ f.reason = .tag ∧
        f.message = "tag did not match at byte " ++ Nat.repr (min x.stop Position.largest))
      (Parser.parse steps.run source) (Exact.run steps (.input source)) ∧
    ∀ s ∈ Snippet.input source :: steps.trail (.input source), ∀ st ∈ steps,
      (s.slice st.width).stop.toNat =
          min (s.offset.toNat + s.length.toNat + st.width.toNat) Position.largest ∧
        ceil source (s.slice st.width).stop.toNat ≤ Position.largest := by
  obtain ⟨htrail, hfinal⟩ :=
    Run.lockstep (fun _ _ h => h) (fun st _ _ h => h.step st) steps (clamps_input hs)
  refine ⟨htrail.imp fun _ _ h => h.mirrors, hfinal.imp (fun _ _ h => h.mirrors) ?_, ?_⟩
  · rintro ⟨s, -⟩ x ⟨h, rfl⟩
    refine ⟨h.mirrors, rfl, ?_⟩
    rw [Failure.message_tag, h.stop]
  · intro s hmem st _
    have hsource : s.source = source := by
      rcases List.mem_cons.1 hmem with rfl | hmem
      · rfl
      · exact Chain.source_of_mem_trail hmem
    subst hsource
    exact Snippet.stop_slice_in_range hs st.width

/-- Two slices run past the largest position: only there do the bytes reported differ. -/
theorem parse_mirrors_exact_past_largest :
    Addressable "€x" ∧
      ∃ f x, Parser.parse
          (Chain.run [.slice 0xffffffffffffffff, .slice 2, .tag ⟨"x"⟩]) "€x" = .error f ∧
        Exact.run [.slice 0xffffffffffffffff, .slice 2, .tag ⟨"x"⟩] (.input "€x") = .error x ∧
        x.stop = 0x10000000000000001 ∧
        f.message = "tag did not match at byte 18446744073709551615" := by
  have hs : Addressable "€x" := by decide
  have hexact : Exact.run [.slice 0xffffffffffffffff, .slice 2, .tag ⟨"x"⟩] (.input "€x") =
      .error ⟨"€x", 0xffffffffffffffff, 2⟩ := by decide +kernel
  obtain ⟨-, hrun, -⟩ := parse_mirrors_exact "€x"
    [.slice 0xffffffffffffffff, .slice 2, .tag ⟨"x"⟩] hs
  rw [hexact] at hrun
  generalize Parser.parse _ _ = o at hrun ⊢
  cases hrun with
  | error h =>
    obtain ⟨-, -, hmessage⟩ := h
    refine ⟨hs, _, _, rfl, hexact, rfl, hmessage.trans ?_⟩
    decide +kernel

end TextCursor
