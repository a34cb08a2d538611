import TextCursor.Chain
import TextCursor.Proofs.Window

/-!
# Runs on a longer text

A snippet is a text and two numbers, so its positions can be read in the same text with more behind
it. What tags match there is what they matched before, at the same positions; a tag that failed may
match there only if the text had ended before the literal did.

* `Snippet.extend`: the same positions in the longer text. Up to the old end they are rounded as
  before, so only the rest is longer (`rest_extend`) and the skew is the same (`skew_extend`).
* `Tag.exists_run_extend_iff`: hence the criterion for a tag, by the shorter text.
* `Tag.run_extend`, `Chain.run_extend`: a match stays a match, also all along a chain.
* `Tag.exists_append_of_run_extend`: a failure that turns into a match was one at the old end.
* `matches_extend`: all of this of one snippet.
-/

namespace TextCursor

open Text

/-! ## Snippets of a longer text -/

namespace Snippet

variable {s : Snippet}

/-- The snippet at the same positions, with `v` behind its source. -/
def extend (s : Snippet) (v : String) : Snippet := ⟨s.source ++ v, s.offset, s.length⟩

@[simp] theorem source_extend (s : Snippet) (v : String) :
    (s.extend v).source = s.source ++ v := rfl

@[simp] theorem stop_extend (s : Snippet) (v : String) : (s.extend v).stop = s.stop := rfl

theorem rest_extend (v : String) (h : s.stop.toNat ≤ s.source.utf8ByteSize) :
    (s.extend v).rest = s.rest ++ v := after_append_left h

theorem skew_extend (v : String) (h : s.stop.toNat ≤ s.source.utf8ByteSize) :
    (s.extend v).skew = s.skew := by
  rw [skew, skew, source_extend, stop_extend, ceil_append_left h]

theorem rest_eq_empty_of_size_le (h : s.source.utf8ByteSize ≤ s.stop.toNat) : s.rest = "" :=
  rest_eq_empty_iff.2 (ceil_of_size_le h)

end Snippet

/-! ## Tags on a longer text -/

namespace Tag

variable {t : Tag} {s s' : Snippet} {v : String}

theorem exists_run_extend_iff (hs : Addressable (s.source ++ v))
    (hstop : s.stop.toNat ≤ s.source.utf8ByteSize) :
    (∃ p, t.run (s.extend v) = .ok p) ↔
      t.expected = "" ∨
        (s.rest ++ v).startsWith t.expected = true ∧ s.skew < lastWidth t.expected := by
  rw [exists_run_eq_ok_iff hs, Snippet.rest_extend v hstop, Snippet.skew_extend v hstop]

/-- **A match stays a match**, at the same positions. -/
theorem run_extend (hs : Addressable (s.source ++ v)) (h : t.run s = .ok s') :
    t.run (s.extend v) = .ok (s'.extend v) := by
  have hmatch : ∃ p, t.run (s.extend v) = .ok p := by
    by_cases hstop : s.stop.toNat ≤ s.source.utf8ByteSize
    · rw [exists_run_extend_iff hs hstop]
      have hmatch := (exists_run_eq_ok_iff hs.of_append).1 ⟨s', h⟩
      exact hmatch.imp id (And.imp_left (startsWith_append v))
    · -- past the end only the empty literal matches
      have hrest := rest_of_run_eq_ok h
      rw [Snippet.rest_eq_empty_of_size_le (Nat.le_of_not_le hstop), eq_comm,
        String.append_eq_empty_iff] at hrest
      exact (exists_run_eq_ok_iff hs).2 (.inl hrest.1)
  obtain ⟨p, hp⟩ := hmatch
  rw [hp, (run_eq_ok_iff.1 hp).2, (run_eq_ok_iff.1 h).2]
  rfl

/-- **A failure that turns into a match** was one at the old end: the text ended within the
literal. -/
theorem exists_append_of_run_extend (hs : Addressable (s.source ++ v))
    (hfail : ¬∃ s', t.run s = .ok s') (h : ∃ p, t.run (s.extend v) = .ok p) :
    ∃ w, w ≠ "" ∧ t.expected = s.rest ++ w := by
  rw [exists_run_eq_ok_iff hs.of_append, not_or] at hfail
  obtain ⟨hne, hno⟩ := hfail
  by_cases hstop : s.stop.toNat ≤ s.source.utf8ByteSize
  · rcases (exists_run_extend_iff hs hstop).1 h with he | ⟨hrest, hskew⟩
    · exact absurd he hne
    · rcases startsWith_or_of_startsWith_append hrest with hrest | hlonger
      · exact absurd ⟨hrest, hskew⟩ hno
      · exact hlonger
  · refine ⟨t.expected, hne, ?_⟩
    rw [Snippet.rest_eq_empty_of_size_le (Nat.le_of_not_le hstop), String.empty_append]

/-- A failure with room for the literal is final. -/
theorem run_extend_of_size_le (hs : Addressable (s.source ++ v)) (hfail : ¬∃ s', t.run s = .ok s')
    (hroom : t.expected.utf8ByteSize ≤ s.rest.utf8ByteSize) :
    t.run (s.extend v) = .error ⟨s.extend v, .tag⟩ := by
  apply run_eq_error_of_not_exists
  intro h
  obtain ⟨w, hw, he⟩ := exists_append_of_run_extend hs hfail h
  have hpos : w.utf8ByteSize ≠ 0 := mt String.utf8ByteSize_eq_zero_iff.1 hw
  rw [he, String.utf8ByteSize_append] at hroom
  omega

/-- A match from within the text stays within it. -/
theorem stop_le_size_of_run_eq_ok (hs : Addressable s.source)
    (hstop : s.stop.toNat ≤ s.source.utf8ByteSize) (h : t.run s = .ok s') :
    s'.stop.toNat ≤ s'.source.utf8ByteSize := by
  have hend := ceil_le_size s'.source s'.stop.toNat
  rw [(taken_of_run_eq_ok hs h).ceil_stop] at hend
  have hround := le_ceil s.source s.stop.toNat
  have hmove := toNat_stop_window t s
  rw [← (run_eq_ok_iff.1 h).2] at hmove
  omega

end Tag

/-! ## Chains on a longer text -/

namespace Chain

variable {es : List String} {s s' : Snippet} {v : String}

/-- **All matches of a chain stay matches**, each at the same positions. -/
theorem run_extend (hs : Addressable (s.source ++ v)) (h : (ofLiterals es).run s = .ok s') :
    (ofLiterals es).run (s.extend v) = .ok (s'.extend v) ∧
      (ofLiterals es).trail (s.extend v) = ((ofLiterals es).trail s).map (·.extend v) := by
  induction es generalizing s with
  | nil =>
    cases h
    exact ⟨rfl, rfl⟩
  | cons e es ih =>
    obtain ⟨s₁, h₁, hes⟩ := run_ofLiterals_cons_eq_ok_iff.1 h
    have hsource := (Tag.taken_of_run_eq_ok hs.of_append h₁).source
    obtain ⟨hrun, htrail⟩ := ih (hsource ▸ hs) hes
    have hext := Tag.run_extend hs h₁
    refine ⟨(run_ofLiterals_cons_of_ok hext).trans hrun, ?_⟩
    rw [trail_ofLiterals_cons_of_ok hext, trail_ofLiterals_cons_of_ok h₁, htrail, List.map_cons]

/-- A chain from within the text stays within it. -/
theorem stop_le_size_of_mem_trail (hs : Addressable s.source)
    (hstop : s.stop.toNat ≤ s.source.utf8ByteSize) {p : Snippet}
    (hp : p ∈ (ofLiterals es).trail s) : p.stop.toNat ≤ p.source.utf8ByteSize := by
  have hstart : s.source = s.source ∧ s.stop.toNat ≤ s.source.utf8ByteSize := ⟨rfl, hstop⟩
  refine ((invariant (P := fun p => p.source = s.source ∧
    p.stop.toNat ≤ p.source.utf8ByteSize) ?_ hstart).1 p hp).2
  intro st hst p p' hp hrun
  obtain ⟨e, -, rfl⟩ := mem_ofLiterals.1 hst
  obtain ⟨hsource, hle⟩ := hp
  have haddr : Addressable p.source := hsource ▸ hs
  exact ⟨(Tag.taken_of_run_eq_ok haddr hrun).source.trans hsource,
    Tag.stop_le_size_of_run_eq_ok haddr hle hrun⟩

end Chain

/-- **What tags do when the text goes on.** A tag that matches still matches, at the same positions,
and so do all literals of a chain. A tag that fails can match only if the rest is the start of its
literal and not all of it, so a failure with room for the literal is final. Within the text, what is
left is only longer, all along a chain. -/
theorem matches_extend (s : Snippet) (v : String) (hs : Addressable (s.source ++ v)) :
    (∀ (t : Tag) (s' : Snippet), t.run s = .ok s' →
      t.run (s.extend v) = .ok (s'.extend v) ∧ (s'.extend v).fragment = s'.fragment) ∧
    (∀ (es : List String) (s' : Snippet), (Chain.ofLiterals es).run s = .ok s' →
      (Chain.ofLiterals es).run (s.extend v) = .ok (s'.extend v) ∧
      (Chain.ofLiterals es).trail (s.extend v) =
        ((Chain.ofLiterals es).trail s).map (·.extend v) ∧
      ((Chain.ofLiterals es).trail (s.extend v)).map Snippet.fragment =
        ((Chain.ofLiterals es).trail s).map Snippet.fragment ∧
      (s.stop.toNat ≤ s.source.utf8ByteSize →
        ((Chain.ofLiterals es).trail (s.extend v)).map Snippet.rest =
          ((Chain.ofLiterals es).trail s).map fun p => p.rest ++ v)) ∧
    (∀ t : Tag, (¬∃ s', t.run s = .ok s') → (∃ p, t.run (s.extend v) = .ok p) →
      ∃ w, w ≠ "" ∧ t.expected = s.rest ++ w) ∧
    (∀ t : Tag, (¬∃ s', t.run s = .ok s') → t.expected.utf8ByteSize ≤ s.rest.utf8ByteSize →
      t.run (s.extend v) = .error ⟨s.extend v, .tag⟩) ∧
    (s.stop.toNat ≤ s.source.utf8ByteSize → (s.extend v).rest = s.rest ++ v) := by
  refine ⟨?_, ?_, fun t => Tag.exists_append_of_run_extend hs,
    fun t => Tag.run_extend_of_size_le hs, Snippet.rest_extend v⟩
  · intro t s' h
    have hext := Tag.run_extend hs h
    refine ⟨hext, ?_⟩
    rw [(Tag.taken_of_run_eq_ok hs hext).fragment, (Tag.taken_of_run_eq_ok hs.of_append h).fragment]
  · intro es s' h
    obtain ⟨hrun, htrail⟩ := Chain.run_extend hs h
    refine ⟨hrun, htrail, ?_, fun hstop => ?_⟩
    · rw [Chain.map_fragment_trail_ofLiterals hrun, Chain.map_fragment_trail_ofLiterals h]
    · rw [htrail, List.map_map]
      refine List.map_congr_left fun p hp => ?_
      exact Snippet.rest_extend v (Chain.stop_le_size_of_mem_trail hs.of_append hstop hp)

/-- From inside a character: one literal is matched and stays so, the next one is matched only when
the text goes on. -/
theorem matches_extend_inside_character :
    Addressable ("€€x" ++ "€y") ∧
      (Chain.ofLiterals ["€"]).run (Snippet.extend ⟨"€€x", 0, 1⟩ "€y") =
        .ok (Snippet.extend ⟨"€€x", 1, 3⟩ "€y") ∧
      ∃ w, w ≠ "" ∧ "€x€" = (Snippet.mk "€€x" 0 1).rest ++ w := by
  have hs : Addressable ("€€x" ++ "€y") := by decide +kernel
  obtain ⟨-, hchain, hlonger, -⟩ := matches_extend ⟨"€€x", 0, 1⟩ "€y" hs
  have hrun : Tag.run ⟨"€"⟩ ⟨"€€x", 0, 1⟩ = .ok ⟨"€€x", 1, 3⟩ :=
    Tag.run_eq_ok_iff.2 ⟨by decide +kernel, by decide +kernel⟩
  have hfail : Tag.run ⟨"€x€"⟩ ⟨"€€x", 0, 1⟩ = .error ⟨⟨"€€x", 0, 1⟩, .tag⟩ :=
    Tag.run_eq_error_iff.2 ⟨by decide +kernel, rfl⟩
  have hmatch : Tag.run ⟨"€x€"⟩ ⟨"€€x€y", 0, 1⟩ = .ok ⟨"€€x€y", 1, 7⟩ :=
    Tag.run_eq_ok_iff.2 ⟨by decide +kernel, by decide +kernel⟩
  refine ⟨hs, (hchain _ _ (Chain.run_ofLiterals_cons_of_ok hrun)).1,
    hlonger ⟨"€x€"⟩ ?_ ⟨_, hmatch⟩⟩
  rw [hfail]
  rintro ⟨s', hs'⟩
  cases hs'

end TextCursor
