import Mathlib.Algebra.GroupWithZero.Nat
import Mathlib.Data.Nat.Find
import TextCursor.Chain
import TextCursor.Proofs.Window

/-!
# Chains of literals

A chain of literals, run from the start of a text, matches as many of them as the text starts with
when they are joined. The invariant is that the cursor stands on a boundary, at the sum of the sizes
of the literals taken: there a tag matches exactly what the rest starts with.

* `reaches_of_rest_eq`: the literals that the rest starts with are matched, one after another
  (`Reaches`), since a match keeps the cursor on a boundary (`Tag.stop_of_run_eq_ok`). What they
  read and leave holds of every chain of literals (`rest_of_run_ofLiterals`).
* `run_ofLiterals_of_lt`: the first literal that the rest does not go on with ends the chain.
* `parse_ofLiterals`: how a chain of literals ends, on either side.
-/

namespace TextCursor

open Text

namespace Chain

/-! ## Literals that follow one another -/

/-- The size of the literals together. -/
def totalSize (es : List String) : Nat := (es.map String.utf8ByteSize).sum

theorem utf8ByteSize_join (es : List String) :
    (String.join es).utf8ByteSize = totalSize es := by
  induction es with
  | nil => rfl
  | cons e es ih =>
    rw [String.join_cons, String.utf8ByteSize_append, ih]
    rfl

theorem totalSize_take_add_le {es : List String} {j : Nat} {e : String} (h : es[j]? = some e) :
    totalSize (es.take j) + e.utf8ByteSize ≤ totalSize es := by
  obtain ⟨hj, rfl⟩ := List.getElem?_eq_some_iff.1 h
  have hsplit := congrArg totalSize (List.take_append_drop j es)
  rw [List.drop_eq_getElem_cons hj] at hsplit
  simp only [totalSize, List.map_append, List.map_cons, List.sum_append, List.sum_cons]
    at hsplit ⊢
  omega

/-- The snippets of the literals, one after another from byte `i` on. -/
def laid (source : String) : Nat → List String → List Snippet
  | _, [] => []
  | i, e :: es => ⟨source, .clamp i, .clamp e.utf8ByteSize⟩ :: laid source (i + e.utf8ByteSize) es

theorem length_laid (source : String) (i : Nat) (es : List String) :
    (laid source i es).length = es.length := by
  induction es generalizing i with
  | nil => rfl
  | cons e es ih => rw [laid, List.length_cons, ih, List.length_cons]

theorem getElem?_laid (source : String) (i : Nat) (es : List String) (j : Nat) :
    (laid source i es)[j]? = es[j]?.map fun e =>
      ⟨source, .clamp (i + totalSize (es.take j)), .clamp e.utf8ByteSize⟩ := by
  induction es generalizing i j with
  | nil => rfl
  | cons e es ih =>
    cases j with
    | zero => simp [laid, totalSize]
    | succ j =>
      rw [laid, List.getElem?_cons_succ, List.getElem?_cons_succ, ih, List.take_succ_cons]
      simp only [totalSize, List.map_cons, List.sum_cons, Nat.add_assoc]

/-! ## Literals that match -/

/-- The chain of `es` goes from `s` to `s'`: every literal matches, right after the one before. -/
structure Reaches (es : List String) (s s' : Snippet) : Prop where
  run : (ofLiterals es).run s = .ok s'
  trail : (ofLiterals es).trail s = laid s.source s.stop.toNat es
  source : s'.source = s.source
  stop : s'.stop.toNat = s.stop.toNat + totalSize es
  boundary : IsBoundary s'.source s'.stop.toNat

theorem reaches_nil {s : Snippet} (hb : IsBoundary s.source s.stop.toNat) : Reaches [] s s :=
  ⟨rfl, rfl, rfl, rfl, hb⟩

theorem reaches_cons {e : String} {es : List String} {s s₁ s' : Snippet}
    (hs : Addressable s.source) (hb : IsBoundary s.source s.stop.toNat)
    (h : Tag.run ⟨e⟩ s = .ok s₁) (hes : Reaches es s₁ s') : Reaches (e :: es) s s' := by
  have htaken := Tag.taken_of_run_eq_ok hs h
  obtain ⟨hstop, -⟩ := Tag.stop_of_run_eq_ok hs hb h
  refine ⟨?_, ?_, hes.source.trans htaken.source, ?_, hes.boundary⟩
  · exact (run_ofLiterals_cons_of_ok h).trans hes.run
  · rw [trail_ofLiterals_cons_of_ok h, hes.trail, hstop, htaken.source, laid,
      (Tag.run_eq_ok_iff.1 h).2, Position.clamp_toNat]
    rfl
  · rw [hes.stop, hstop, Nat.add_assoc]
    rfl

/-- **What the rest starts with is matched**, however it is divided into literals. -/
theorem reaches_of_rest_eq {es : List String} {s : Snippet} {v : String}
    (hs : Addressable s.source) (hb : IsBoundary s.source s.stop.toNat)
    (h : s.rest = String.join es ++ v) : ∃ s', Reaches es s s' ∧ s'.rest = v := by
  induction es generalizing s with
  | nil =>
    rw [String.join_nil, String.empty_append] at h
    exact ⟨s, reaches_nil hb, h⟩
  | cons e es ih =>
    rw [String.join_cons, String.append_assoc] at h
    obtain ⟨s₁, h₁, -, hb₁⟩ := Tag.exists_run_eq_ok_of_startsWith (t := ⟨e⟩) hs hb
      (startsWith_iff_exists.2 ⟨_, h⟩)
    have htaken := Tag.taken_of_run_eq_ok hs h₁
    have hrest : s₁.rest = String.join es ++ v := by
      rw [htaken.rest] at h
      exact (String.append_right_inj e).1 h
    obtain ⟨s', hes, hv⟩ := ih (htaken.source.symm ▸ hs) hb₁ hrest
    exact ⟨s', reaches_cons hs hb h₁ hes, hv⟩

/-! ## The first literal that does not match -/

/-- How many of the literals are matched: the most that `source` starts with when joined. -/
def matched (source : String) (es : List String) : Nat :=
  Nat.findGreatest (fun k => source.startsWith (String.join (es.take k)) = true) es.length

variable {source : String} {es : List String}

theorem matched_le (source : String) (es : List String) : matched source es ≤ es.length :=
  Nat.findGreatest_le _

theorem startsWith_take_matched (source : String) (es : List String) :
    source.startsWith (String.join (es.take (matched source es))) = true := by
  refine Nat.findGreatest_spec
    (P := fun k => source.startsWith (String.join (es.take k)) = true) (Nat.zero_le _) ?_
  rw [List.take_zero, String.join_nil]
  exact String.startsWith_string_empty

theorem not_startsWith_of_matched_lt {k : Nat} (hk : matched source es < k)
    (hle : k ≤ es.length) : ¬source.startsWith (String.join (es.take k)) = true :=
  Nat.findGreatest_is_greatest hk hle

theorem matched_eq_length_iff :
    matched source es = es.length ↔ source.startsWith (String.join es) = true := by
  refine ⟨fun h => ?_, fun h => ?_⟩
  · have := startsWith_take_matched source es
    rwa [h, List.take_length] at this
  · refine Nat.le_antisymm (matched_le source es) (Nat.not_lt.1 fun hlt => ?_)
    exact not_startsWith_of_matched_lt hlt (Nat.le_refl _) (by rwa [List.take_length])

theorem exists_reaches_take_matched (hs : Addressable source) (es : List String) :
    ∃ s', Reaches (es.take (matched source es)) (.input source) s' ∧
      source = String.join (es.take (matched source es)) ++ s'.rest := by
  obtain ⟨v, hv⟩ := startsWith_iff_exists.1 (startsWith_take_matched source es)
  obtain ⟨s', hr, rfl⟩ := reaches_of_rest_eq (s := .input source) hs (isBoundary_zero source)
    (by rw [Snippet.rest_input]; exact hv)
  exact ⟨s', hr, hv⟩

/-- The literal after those that are matched is tried where they end, and fails there. -/
theorem run_eq_error_of_reaches {s' : Snippet} (hs : Addressable source)
    (hr : Reaches (es.take (matched source es)) (.input source) s')
    (hk : matched source es < es.length) :
    s'.rest.startsWith es[matched source es] = false ∧
      Tag.run ⟨es[matched source es]⟩ s' = .error ⟨s', .tag⟩ := by
  have hskew : s'.skew = 0 := Snippet.skew_eq_zero_iff.2 (.inl hr.boundary)
  have hs' : Addressable s'.source := hr.source.symm ▸ hs
  have hno : ¬s'.rest.startsWith es[matched source es] = true := by
    intro h
    obtain ⟨v, hv⟩ := startsWith_iff_exists.1 h
    refine not_startsWith_of_matched_lt (Nat.lt_succ_self _) hk (startsWith_iff_exists.2 ⟨v, ?_⟩)
    have hrest := rest_of_run_ofLiterals hr.run
    rw [Snippet.rest_input, hv] at hrest
    rw [← List.take_append_getElem hk, String.join_append, String.join_cons, String.join_nil,
      String.append_empty, String.append_assoc]
    exact hrest
  refine ⟨Bool.eq_false_iff.2 hno, Tag.run_eq_error_of_not_exists fun h => hno ?_⟩
  exact (Tag.exists_run_eq_ok_iff_startsWith (t := ⟨_⟩) hs' hskew).1 h

theorem run_ofLiterals_of_lt {s' : Snippet} (hs : Addressable source)
    (hr : Reaches (es.take (matched source es)) (.input source) s')
    (hk : matched source es < es.length) :
    (ofLiterals es).run (.input source) = .error ⟨s', .tag⟩ ∧
      (ofLiterals es).trail (.input source) =
        (ofLiterals (es.take (matched source es))).trail (.input source) := by
  have herr : Step.run (.tag ⟨es[matched source es]⟩) s' = .error ⟨s', .tag⟩ :=
    (run_eq_error_of_reaches hs hr hk).2
  have hsplit : ofLiterals es = ofLiterals (es.take (matched source es)) ++
      .tag ⟨es[matched source es]⟩ :: ofLiterals (es.drop (matched source es + 1)) := by
    conv => lhs; rw [← List.take_append_drop (matched source es) es, List.drop_eq_getElem_cons hk]
    simp only [ofLiterals, List.map_append, List.map_cons]
  refine ⟨?_, ?_⟩
  · rw [hsplit, run_append, hr.run]
    exact Run.final_cons_of_error herr
  · rw [hsplit]
    refine (Run.trail_append hr.run).trans ?_
    rw [Run.trail_cons_of_error herr, List.append_nil]
    rfl

theorem trail_ofLiterals {s' : Snippet} (hs : Addressable source)
    (hr : Reaches (es.take (matched source es)) (.input source) s') :
    (ofLiterals es).trail (.input source) = laid source 0 (es.take (matched source es)) ∧
      ((ofLiterals es).trail (.input source)).map Snippet.fragment =
        es.take (matched source es) ∧
      ((ofLiterals es).trail (.input source)).getLastD (.input source) = s' := by
  have htake : (ofLiterals es).trail (.input source) =
      (ofLiterals (es.take (matched source es))).trail (.input source) := by
    rcases Nat.lt_or_eq_of_le (matched_le source es) with hk | hk
    · exact (run_ofLiterals_of_lt hs hr hk).2
    · rw [hk, List.take_length]
  rw [htake]
  exact ⟨hr.trail, map_fragment_trail_ofLiterals hr.run, Run.getLastD_trail hr.run⟩

/-- The snippets of the chain stand at the sums of the sizes, which are not clamped. -/
theorem getElem?_trail_ofLiterals (hs : Addressable source) {j : Nat} {s : Snippet}
    (h : ((ofLiterals es).trail (.input source))[j]? = some s) :
    ∃ e, es[j]? = some e ∧ s.source = source ∧ s.offset.toNat = totalSize (es.take j) ∧
      s.length.toNat = e.utf8ByteSize ∧ s.fragment = e := by
  obtain ⟨s', hr, hsource⟩ := exists_reaches_take_matched hs es
  obtain ⟨htrail, hfragments, -⟩ := trail_ofLiterals hs hr
  have hf := congrArg (·[j]?) hfragments
  simp only [List.getElem?_map, h, Option.map_some] at hf
  rw [htrail, getElem?_laid] at h
  obtain ⟨e, he, rfl⟩ := Option.map_eq_some_iff.1 h
  have hj : j < matched source es := by
    have := (List.getElem?_eq_some_iff.1 he).1
    rw [List.length_take] at this
    omega
  -- the literal ends within the source, so neither of its positions is clamped
  have hle := totalSize_take_add_le he
  have hsize := congrArg String.utf8ByteSize hsource
  rw [String.utf8ByteSize_append, utf8ByteSize_join] at hsize
  unfold Addressable at hs
  rw [he, Option.some.injEq] at hf
  rw [List.take_take, Nat.min_eq_left (Nat.le_of_lt hj)] at hle hf ⊢
  rw [List.getElem?_take_of_lt hj] at he
  refine ⟨e, he, rfl, ?_, ?_, hf⟩
  · rw [Position.toNat_clamp]
    omega
  · rw [Position.toNat_clamp]
    omega

/-- How a chain ends depends on the joined literals alone. -/
theorem end_ofLiterals (hs : Addressable source) (es : List String) :
    (((ofLiterals es).run (.input source)).toOption.map fun s => (s.stop, s.rest)) =
      if source.startsWith (String.join es) then
        some (.clamp (String.join es).utf8ByteSize, after source (String.join es).utf8ByteSize)
      else none := by
  obtain ⟨s', hr, -⟩ := exists_reaches_take_matched hs es
  split
  · rename_i h
    rw [matched_eq_length_iff.2 h, List.take_length] at hr
    have hstop := hr.stop
    rw [Snippet.stop_input, UInt64.toNat_zero, Nat.zero_add, ← utf8ByteSize_join] at hstop
    rw [hr.run, ← hstop, Position.clamp_toNat]
    change some (s'.stop, after s'.source s'.stop.toNat) = _
    rw [hr.source]
    rfl
  · rename_i h
    have hk : matched source es < es.length :=
      Nat.lt_of_le_of_ne (matched_le source es) (mt matched_eq_length_iff.1 h)
    rw [(run_ofLiterals_of_lt hs hr hk).1]
    rfl

/-- **How a chain of literals ends.** If the text starts with all of them, joined, the chain takes
each of them in turn; else it fails at the first that the text does not go on with, where those
before it end. Either way how the literals are divided does not matter. -/
theorem parse_ofLiterals (source : String) (es : List String) (hs : Addressable source) :
    ((ofLiterals es).trail (.input source)).length = matched source es ∧
    (∀ (j : Nat) (s : Snippet), ((ofLiterals es).trail (.input source))[j]? = some s →
      ∃ e, es[j]? = some e ∧ s.source = source ∧ s.offset.toNat = totalSize (es.take j) ∧
        s.length.toNat = e.utf8ByteSize ∧ s.fragment = e) ∧
    (matched source es = es.length →
      ∃ s, Parser.parse (ofLiterals es).run source = .ok s ∧
        s = ((ofLiterals es).trail (.input source)).getLastD (.input source) ∧
        source = String.join es ++ s.rest) ∧
    (∀ hk : matched source es < es.length,
      ∃ f, Parser.parse (ofLiterals es).run source = .error f ∧
        f.snippet = ((ofLiterals es).trail (.input source)).getLastD (.input source) ∧
        f.reason = .tag ∧
        f.message = "tag did not match at byte " ++
          Nat.repr (totalSize (es.take (matched source es))) ∧
        IsBoundary source (totalSize (es.take (matched source es))) ∧
        totalSize (es.take (matched source es)) ≤ source.utf8ByteSize ∧
        (after source (totalSize (es.take (matched source es)))).startsWith
          es[matched source es] = false) ∧
    (∀ es', String.join es' = String.join es →
      ((Parser.parse (ofLiterals es').run source).toOption.map fun s => (s.stop, s.rest)) =
        ((Parser.parse (ofLiterals es).run source).toOption.map fun s => (s.stop, s.rest))) := by
  obtain ⟨s', hr, hsource⟩ := exists_reaches_take_matched hs es
  obtain ⟨htrail, -, hlast⟩ := trail_ofLiterals hs hr
  refine ⟨?_, fun j s h => getElem?_trail_ofLiterals hs h, fun hk => ?_, fun hk => ?_, ?_⟩
  · rw [htrail, length_laid, List.length_take, Nat.min_eq_left (matched_le source es)]
  · rw [hk, List.take_length] at hr hsource
    exact ⟨s', hr.run, hlast.symm, hsource⟩
  · have hstop := hr.stop
    have hboundary := hr.boundary
    rw [Snippet.stop_input, UInt64.toNat_zero, Nat.zero_add] at hstop
    rw [hr.source, hstop] at hboundary
    obtain ⟨hrest, -⟩ := run_eq_error_of_reaches hs hr hk
    refine ⟨⟨s', .tag⟩, (run_ofLiterals_of_lt hs hr hk).1, hlast.symm, rfl, ?_, hboundary,
      hboundary.le, ?_⟩
    · rw [← hstop]
      rfl
    · rw [Snippet.rest, hr.source, hstop] at hrest
      exact hrest
  · intro es' h
    have h₁ := end_ofLiterals hs es'
    rw [h, ← end_ofLiterals hs es] at h₁
    exact h₁

/-- The third literal is not found after the first two, which end inside no character. -/
theorem parse_ofLiterals_third :
    Addressable "aé€" ∧ matched "aé€" ["a", "é", "x"] = 2 ∧
      ∃ f, Parser.parse (ofLiterals ["a", "é", "x"]).run "aé€" = .error f ∧
        f.message = "tag did not match at byte 3" := by
  have hs : Addressable "aé€" := by decide
  have hk : matched "aé€" ["a", "é", "x"] = 2 := by decide +kernel
  obtain ⟨f, hf, -, -, hmessage, -⟩ :=
    (parse_ofLiterals "aé€" ["a", "é", "x"] hs).2.2.2.1 (by rw [hk]; decide)
  refine ⟨hs, hk, f, hf, ?_⟩
  rw [hmessage, hk]
  rfl

end Chain

end TextCursor
