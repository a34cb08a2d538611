import TextCursor.Chain
import TextCursor.Text.Addressable
import TextCursor.Proofs.Lockstep
import TextCursor.Proofs.Tiling

/-!
# Runs behind another text

A run does not see the text before its start, nor how the start came to stop where it does. Behind
a text `u` it does the same, with every position moved by the size of `u`.

* `StopsBehind u s t`: the invariant. `t` stops in `u ++ w` where `s` stops in `w`.
* `StopsBehind.moved_slice`: hence what is sliced is equal on both sides, but for its offset
  (`Moved`), since rounding commutes with a text in front (`Text.between_append_right`).
* `StopsBehind.step`: a tag matches on both sides or on none, since its windows have one text.
* `run_moved`: the same of a whole run.
-/

namespace TextCursor

open Text

/-- `t` stops behind the text `u` where `s` stops without it, in an addressable text. -/
structure StopsBehind (u : String) (s t : Snippet) : Prop where
  source : t.source = u ++ s.source
  stop : t.stop.toNat = min (u.utf8ByteSize + s.stop.toNat) Position.largest
  addressable : Addressable (u ++ s.source)

/-- `t` is `s`, moved behind the text `u`. -/
structure Moved (u : String) (s t : Snippet) : Prop extends StopsBehind u s t where
  offset : t.offset.toNat = min (u.utf8ByteSize + s.offset.toNat) Position.largest
  length : t.length = s.length
  fragment : t.fragment = s.fragment
  rest : t.rest = s.rest
  atEnd : t.atEnd = s.atEnd

variable {u : String} {s t : Snippet}

/-- Behind no text, a snippet stays what it is. -/
theorem Moved.eq_of_empty (h : Moved "" s t) : s = t := by
  have hoffset := h.offset
  have hle := Position.toNat_le_largest s.offset
  rw [String.utf8ByteSize_empty, Nat.zero_add, Nat.min_eq_left hle, UInt64.toNat_inj] at hoffset
  have hsource := h.source
  rw [String.empty_append] at hsource
  obtain ⟨source, offset, length⟩ := t
  obtain rfl : source = s.source := hsource
  obtain rfl : offset = s.offset := hoffset
  obtain rfl : length = s.length := h.length
  rfl

namespace StopsBehind

/-- Both stops are rounded to the same boundary of the longer text. -/
theorem ceil_stop (h : StopsBehind u s t) :
    ceil (u ++ s.source) t.stop.toNat = ceil (u ++ s.source) (u.utf8ByteSize + s.stop.toNat) := by
  rw [h.stop, ceil_min_largest h.addressable]

theorem rest (h : StopsBehind u s t) : t.rest = s.rest := by
  rw [Snippet.rest, h.source, after_congr h.ceil_stop, after_append_right, Snippet.rest]

theorem slice (h : StopsBehind u s t) (n : Position) :
    StopsBehind u (s.slice n) (t.slice n) := by
  refine ⟨h.source, ?_, h.addressable⟩
  have hstop := h.stop
  rw [Snippet.toNat_stop_slice, Snippet.toNat_stop_slice, hstop]
  omega

theorem fragment_slice (h : StopsBehind u s t) (n : Position) :
    (t.slice n).fragment = (s.slice n).fragment := by
  rw [Snippet.fragment_of_source_eq (h.slice n).source]
  exact (between_congr h.ceil_stop (h.slice n).ceil_stop).trans
    (between_append_right u s.source (s.slice n).offset_le_stop)

theorem moved_slice (h : StopsBehind u s t) (n : Position) :
    Moved u (s.slice n) (t.slice n) :=
  { h.slice n with
    offset := h.stop
    length := rfl
    fragment := h.fragment_slice n
    rest := (h.slice n).rest
    atEnd := Snippet.atEnd_congr (h.slice n).rest }

/-- **One step**: both snippets take it, or both fail where they stand. -/
theorem step (st : Step) (h : StopsBehind u s t) :
    Run.Agree (Moved u)
      (fun f g => StopsBehind u f.snippet g.snippet ∧ f.reason = .tag ∧ g.reason = .tag)
      (st.run s) (st.run t) := by
  have haccepts := Step.accepts_congr st (h.fragment_slice st.width)
  by_cases hs : st.Accepts (s.slice st.width)
  · rw [Step.run_of_accepts hs, Step.run_of_accepts (haccepts.2 hs)]
    exact .ok (h.moved_slice st.width)
  · rw [Step.run_of_not_accepts hs, Step.run_of_not_accepts (mt haccepts.1 hs)]
    exact .error ⟨h, rfl, rfl⟩

end StopsBehind

/-- **A run depends on its start through the stop alone**, and does the same behind any text: both
runs succeed, or both fail at the same step, and at every step the snippets are equal but for the
text in front. -/
theorem run_moved (u w : String) (s t : Snippet) (steps : Chain) (hs : s.source = w)
    (ht : t.source = u ++ w) (haddr : Addressable (u ++ w))
    (hstop : t.stop.toNat = min (u.utf8ByteSize + s.stop.toNat) Position.largest) :
    List.Forall₂ (Moved u) (steps.trail s) (steps.trail t) ∧
    Run.Agree (StopsBehind u)
      (fun f g => StopsBehind u f.snippet g.snippet ∧ f.reason = .tag ∧ g.reason = .tag ∧
        f.message = "tag did not match at byte " ++ Nat.repr f.snippet.stop.toNat ∧
        g.message = "tag did not match at byte " ++
          Nat.repr (min (u.utf8ByteSize + f.snippet.stop.toNat) Position.largest))
      (steps.run s) (steps.run t) ∧
    (u = "" → steps.trail s = steps.trail t) := by
  subst hs
  have hstart : StopsBehind u s t := ⟨ht, hstop, haddr⟩
  obtain ⟨htrail, hfinal⟩ := Run.lockstep (fun _ _ h => h.toStopsBehind)
    (fun st _ _ h => h.step st) steps hstart
  refine ⟨htrail, hfinal.imp (fun _ _ h => h) ?_, ?_⟩
  · rintro ⟨s', -⟩ ⟨t', -⟩ ⟨h, rfl, rfl⟩
    refine ⟨h, rfl, rfl, Failure.message_tag s', ?_⟩
    rw [Failure.message_tag, h.stop]
  · rintro rfl
    exact List.forall₂_eq_eq_eq ▸ htrail.imp fun _ _ h => h.eq_of_empty

/-- From inside a character, however the start came to stop there. -/
theorem run_moved_inside_character :
    Addressable ("é€" ++ "€x") ∧
      ∃ f g, Chain.run [.slice 2, .tag ⟨"x"⟩, .tag ⟨"y"⟩] ⟨"€x", 0, 1⟩ = .error f ∧
        Chain.run [.slice 2, .tag ⟨"x"⟩, .tag ⟨"y"⟩] ⟨"é€€x", 6, 0⟩ = .error g ∧
        f.message = "tag did not match at byte 4" ∧
        g.message = "tag did not match at byte 9" := by
  have haddr : Addressable ("é€" ++ "€x") := by decide +kernel
  obtain ⟨-, hmoved, -⟩ := run_moved "é€" "€x" ⟨"€x", 0, 1⟩ ⟨"é€€x", 6, 0⟩
    [.slice 2, .tag ⟨"x"⟩, .tag ⟨"y"⟩] rfl (by decide +kernel) haddr (by decide +kernel)
  have hrun : Chain.run [.slice 2, .tag ⟨"x"⟩, .tag ⟨"y"⟩] ⟨"€x", 0, 1⟩ =
      .error ⟨⟨"€x", 3, 1⟩, .tag⟩ := by decide +kernel
  rw [hrun] at hmoved
  generalize Chain.run _ ⟨"é€€x", 6, 0⟩ = o at hmoved ⊢
  cases hmoved with
  | error h =>
    obtain ⟨-, -, -, hf, hmessage⟩ := h
    refine ⟨haddr, _, _, hrun, rfl, hf.trans ?_, hmessage.trans ?_⟩
    · decide +kernel
    · decide +kernel

end TextCursor
