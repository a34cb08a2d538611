import TextCursor.Chain
import TextCursor.Text.Ends

/-!
# The end of the text

A snippet is at the end from where the last character of its source has begun, for the stop is
rounded over the rest of that character. Whatever stands inside the last character, at its end or
past it leaves nothing, and nothing is what every later step reads.

* `Snippet.atEnd_iff_stop`: where the end begins.
* `Snippet.exists_append_rest_of_stop_le`: further on, less is left: the rest is a last part of what
  it was. So an end is never left behind (`Snippet.atEnd_of_stop_le`).
* `Snippet.slice_of_atEnd`: what is sliced at the end is empty, and at the end.
* `Chain.exists_run_eq_ok_iff_of_atEnd`, `Chain.trail_of_atEnd`: hence so is every snippet of a
  chain, which succeeds exactly if it asks for no text (`Step.IsBlank`).
* `atEnd_absorbing`: all of this of one snippet.
-/

namespace TextCursor

open Text

namespace Snippet

variable {s t : Snippet}

/-- **The end begins** with the last character. -/
theorem atEnd_iff_stop :
    s.atEnd = true ↔
      s.source = "" ∨
        ∃ u c, s.source = u ++ String.singleton c ∧ u.utf8ByteSize < s.stop.toNat := by
  rw [atEnd_iff, rest_eq_empty_iff]
  by_cases he : s.source = ""
  · have hle := ceil_le_size s.source s.stop.toNat
    rw [he, String.utf8ByteSize_empty] at hle
    simp only [he, String.utf8ByteSize_empty, Nat.le_zero.1 hle, true_or]
  rw [ceil_eq_size_iff he, or_iff_right he]
  have hlast : ∀ u c, s.source = u ++ String.singleton c →
      (s.source.utf8ByteSize < s.stop.toNat + lastWidth s.source ↔
        u.utf8ByteSize < s.stop.toNat) := by
    intro u c hu
    rw [hu, lastWidth_append (by simp), lastWidth_singleton, String.utf8ByteSize_append,
      String.utf8ByteSize_singleton]
    omega
  constructor
  · intro h
    obtain ⟨u, c, hu⟩ := eq_append_singleton_of_ne_empty he
    exact ⟨u, c, hu, (hlast u c hu).1 h⟩
  · rintro ⟨u, c, hu, h⟩
    exact (hlast u c hu).2 h

/-- **Further on, less is left.** -/
theorem exists_append_rest_of_stop_le (hsource : t.source = s.source)
    (h : s.stop.toNat ≤ t.stop.toNat) : ∃ w, s.rest = w ++ t.rest := by
  refine ⟨between s.source s.stop.toNat t.stop.toNat h, ?_⟩
  rw [rest, rest, hsource, between_append_after]

theorem atEnd_of_stop_le (hsource : t.source = s.source) (h : s.stop.toNat ≤ t.stop.toNat)
    (hs : s.atEnd = true) : t.atEnd = true := by
  obtain ⟨w, hw⟩ := exists_append_rest_of_stop_le hsource h
  rw [atEnd_iff.1 hs, eq_comm, String.append_eq_empty_iff] at hw
  exact atEnd_iff.2 hw.2

/-- Where less is left is further on. -/
theorem stop_lt_of_rest_lt (hsource : t.source = s.source)
    (h : t.rest.utf8ByteSize < s.rest.utf8ByteSize) : s.stop.toNat < t.stop.toNat := by
  apply Nat.lt_of_not_le
  intro hle
  obtain ⟨w, hw⟩ := exists_append_rest_of_stop_le hsource.symm hle
  rw [hw, String.utf8ByteSize_append] at h
  omega

/-- **At the end** a slice reads nothing and stays there. -/
theorem slice_of_atEnd (h : s.atEnd = true) (n : Position) :
    (s.slice n).fragment = "" ∧ (s.slice n).atEnd = true := by
  have hnone := s.slice_fragment_append_rest n
  rw [atEnd_iff.1 h, String.append_eq_empty_iff] at hnone
  exact ⟨hnone.1, atEnd_iff.2 hnone.2⟩

end Snippet

/-! ## Runs from the end -/

namespace Step

variable {st : Step} {s s' : Snippet}

/-- That a step asks for no text: it slices, or its literal is empty. -/
def IsBlank : Step → Prop
  | .slice _ => True
  | .tag t => t.expected = ""

theorem accepts_iff_isBlank {p : Snippet} (h : p.fragment = "") : st.Accepts p ↔ st.IsBlank := by
  cases st with
  | slice n => exact Iff.rfl
  | tag t => rw [Accepts, IsBlank, h, eq_comm]

theorem run_of_isBlank (h : s.atEnd = true) (hst : st.IsBlank) :
    st.run s = .ok (s.slice st.width) :=
  run_of_accepts ((accepts_iff_isBlank (s.slice_of_atEnd h st.width).1).2 hst)

theorem run_of_not_isBlank (h : s.atEnd = true) (hst : ¬st.IsBlank) :
    st.run s = .error ⟨s, .tag⟩ :=
  run_of_not_accepts (mt (accepts_iff_isBlank (s.slice_of_atEnd h st.width).1).1 hst)

theorem atEnd_of_run_eq_ok (h : s.atEnd = true) (hrun : st.run s = .ok s') :
    s'.fragment = "" ∧ s'.atEnd = true := by
  rw [eq_slice_of_run_eq_ok hrun]
  exact s.slice_of_atEnd h st.width

end Step

namespace Chain

variable {steps : Chain} {s : Snippet}

/-- **From the end a chain succeeds** exactly if it asks for no text. -/
theorem exists_run_eq_ok_iff_of_atEnd (h : s.atEnd = true) :
    (∃ s', steps.run s = .ok s') ↔ ∀ st ∈ steps, st.IsBlank := by
  unfold run
  induction steps generalizing s with
  | nil => simp
  | cons st steps ih =>
    rw [List.forall_mem_cons]
    by_cases hst : st.IsBlank
    · rw [Run.final_cons_of_ok (Step.run_of_isBlank h hst), ih (s.slice_of_atEnd h st.width).2,
        and_iff_right hst]
    · rw [Run.final_cons_of_error (Step.run_of_not_isBlank h hst)]
      simp [hst]

theorem trail_of_atEnd (h : s.atEnd = true) :
    ∀ p ∈ steps.trail s, p.fragment = "" ∧ p.atEnd = true := by
  unfold trail
  induction steps generalizing s with
  | nil => exact nofun
  | cons st steps ih =>
    cases hst : st.run s with
    | ok s₁ =>
      have h₁ := Step.atEnd_of_run_eq_ok h hst
      rw [Run.trail_cons_of_ok hst]
      exact List.forall_mem_cons.2 ⟨h₁, ih h₁.2⟩
    | error f =>
      rw [Run.trail_cons_of_error hst]
      exact nofun

theorem atEnd_resume (steps : Chain) (h : s.atEnd = true) :
    (Outcome.resume (steps.run s)).atEnd = true :=
  (invariant (fun _ _ _ _ hp hrun => (Step.atEnd_of_run_eq_ok hp hrun).2) h).2

end Chain

/-- **The end of the text is exact, and is never left.** A snippet is at the end exactly if its
source is empty or it stops past the start of the last character. Of two snippets of one source the
one that stops further on leaves a last part of what the other leaves, and is at the end if the
other is. From the end a chain succeeds exactly if it asks for no text; all its snippets are empty
and at the end, and the one at which it fails is at the end too. -/
theorem atEnd_absorbing (s : Snippet) :
    (s.atEnd = true ↔
      s.source = "" ∨
        ∃ u c, s.source = u ++ String.singleton c ∧ u.utf8ByteSize < s.stop.toNat) ∧
    (∀ t : Snippet, t.source = s.source →
      (s.stop.toNat ≤ t.stop.toNat →
        (∃ w, s.rest = w ++ t.rest) ∧ (s.atEnd = true → t.atEnd = true)) ∧
      (t.rest.utf8ByteSize < s.rest.utf8ByteSize → s.stop.toNat < t.stop.toNat)) ∧
    (s.atEnd = true → ∀ steps : Chain,
      ((∃ s', steps.run s = .ok s') ↔ ∀ st ∈ steps, st.IsBlank) ∧
      (∀ p ∈ steps.trail s, p.fragment = "" ∧ p.atEnd = true) ∧
      ∀ f, steps.run s = .error f → f.snippet.atEnd = true) := by
  refine ⟨Snippet.atEnd_iff_stop,
    fun t hsource => ⟨fun h => ?_, Snippet.stop_lt_of_rest_lt hsource⟩,
    fun h steps => ⟨Chain.exists_run_eq_ok_iff_of_atEnd h, Chain.trail_of_atEnd h, fun f hf => ?_⟩⟩
  · exact ⟨Snippet.exists_append_rest_of_stop_le hsource h, Snippet.atEnd_of_stop_le hsource h⟩
  · have hend := Chain.atEnd_resume steps h
    rwa [hf] at hend

/-- From inside the last character, past every position, and up to the first literal that asks for
text. -/
theorem atEnd_absorbing_inside_character :
    (Snippet.mk "a€" 0 2).stop.toNat < "a€".utf8ByteSize ∧ (Snippet.mk "a€" 0 2).atEnd = true ∧
      (∃ s', Chain.run [.slice 0xffffffffffffffff, .tag ⟨""⟩] ⟨"a€", 0, 2⟩ = .ok s') ∧
      ¬∃ s', Chain.run [.slice 0xffffffffffffffff, .tag ⟨"€"⟩] ⟨"a€", 0, 2⟩ = .ok s' := by
  obtain ⟨hend, -, hruns⟩ := atEnd_absorbing ⟨"a€", 0, 2⟩
  have h : (Snippet.mk "a€" 0 2).atEnd = true := hend.2 (.inr ⟨"a", '€', by decide, by decide⟩)
  refine ⟨by decide, h, (hruns h _).1.2 ?_, mt (hruns h _).1.1 ?_⟩
  · simp [Step.IsBlank]
  · simp [Step.IsBlank]

end TextCursor
