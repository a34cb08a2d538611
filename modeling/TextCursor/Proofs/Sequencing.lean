import TextCursor.Chain
import TextCursor.Proofs.Tiling
import TextCursor.Proofs.Window

/-!
# Literals in sequence, and joined

A chain of literals and one tag of the literals joined go over the same text, but the chain compares
it in pieces. From inside a character a piece can be too narrow to be matched where the whole text
is not, so there it matters how a text is divided into literals.

* `Fits`: a literal's last character is wider than the skew.
* `Tag.skew_of_run_eq_ok`: the invariant. A match leaves the skew as it was.
* `exists_run_ofLiterals_iff`: hence a chain succeeds exactly if the rest starts with the literals
  joined and all of them fit the skew at the start.
* `run_ofLiterals_of_misfit`: the first literal that does not fit ends the chain.
* `run_ofLiterals_join`: the chain and the one tag, compared.
-/

namespace TextCursor

open Text

/-! ## Literals that fit -/

/-- That a tag of `e` can match where the rest starts `d` bytes after the stop. -/
def Fits (d : Nat) (e : String) : Prop := e = "" ∨ d < lastWidth e

instance (d : Nat) (e : String) : Decidable (Fits d e) := inferInstanceAs (Decidable (_ ∨ _))

theorem fits_zero (e : String) : Fits 0 e := .inr (lastWidth_pos e)

theorem Fits.append {d : Nat} {u e : String} (hu : Fits d u) (he : Fits d e) :
    Fits d (u ++ e) := by
  rcases he with rfl | hlt
  · rwa [String.append_empty]
  · by_cases hne : e = ""
    · rwa [hne, String.append_empty]
    · exact .inr (by rwa [lastWidth_append hne])

theorem fits_join {d : Nat} {es : List String} (h : ∀ e ∈ es, Fits d e) :
    Fits d (String.join es) := by
  induction es with
  | nil => exact .inl rfl
  | cons e es ih =>
    rw [String.join_cons]
    exact (h e List.mem_cons_self).append (ih fun e' he' => h e' (List.mem_cons_of_mem e he'))

/-- Literals of which one does not fit can be divided at the first such one. -/
theorem exists_first_misfit {d : Nat} {es : List String} (h : ¬∀ e ∈ es, Fits d e) :
    ∃ xs e ys, es = xs ++ e :: ys ∧ (∀ x ∈ xs, Fits d x) ∧ ¬Fits d e := by
  induction es with
  | nil => exact absurd nofun h
  | cons e es ih =>
    by_cases he : Fits d e
    · obtain ⟨xs, e', ys, rfl, hxs, he'⟩ := ih fun hes => h (List.forall_mem_cons.2 ⟨he, hes⟩)
      exact ⟨e :: xs, e', ys, rfl, List.forall_mem_cons.2 ⟨he, hxs⟩, he'⟩
    · exact ⟨[], e, es, rfl, nofun, he⟩

namespace Tag

variable {t : Tag} {s s' : Snippet}

theorem exists_run_eq_ok_iff_fits (hs : Addressable s.source) :
    (∃ s', t.run s = .ok s') ↔
      s.rest.startsWith t.expected = true ∧ Fits s.skew t.expected := by
  rw [exists_run_eq_ok_iff hs]
  by_cases he : t.expected = ""
  · simp [Fits, he]
  · simp [Fits, he]

/-- **A match leaves the skew as it was**: the stop and the boundary that it is rounded to move by
the size of the literal. -/
theorem skew_of_run_eq_ok (hs : Addressable s.source) (h : t.run s = .ok s') :
    s'.skew = s.skew := by
  have htaken := taken_of_run_eq_ok hs h
  have hceil := htaken.ceil_stop
  have hend := ceil_le_size s'.source s'.stop.toNat
  have hstop := toNat_stop_window t s
  rw [← (run_eq_ok_iff.1 h).2] at hstop
  -- past the end of the source only the empty literal matches
  have hround := le_ceil s.source s.stop.toNat
  have hclamp := Position.toNat_le_largest s.stop
  unfold Addressable at hs
  unfold Snippet.skew
  rw [htaken.source] at hend hceil ⊢
  omega

end Tag

namespace Chain

variable {es xs ys : List String} {e : String} {s s' : Snippet}

/-! ## Literals in sequence -/

/-- All along a chain of literals the skew is that of the start. -/
theorem skew_ofLiterals (es : List String) (hs : Addressable s.source) :
    (∀ p ∈ (ofLiterals es).trail s, p.source = s.source ∧ p.skew = s.skew) ∧
    (Outcome.resume ((ofLiterals es).run s)).source = s.source ∧
    (Outcome.resume ((ofLiterals es).run s)).skew = s.skew := by
  refine invariant (P := fun p => p.source = s.source ∧ p.skew = s.skew) ?_ ⟨rfl, rfl⟩
  intro st hst p p' hp hrun
  obtain ⟨e, -, rfl⟩ := mem_ofLiterals.1 hst
  obtain ⟨hsource, hskew⟩ := hp
  have haddr : Addressable p.source := hsource ▸ hs
  exact ⟨(Tag.taken_of_run_eq_ok haddr hrun).source.trans hsource,
    (Tag.skew_of_run_eq_ok haddr hrun).trans hskew⟩

theorem source_skew_of_run_ofLiterals (hs : Addressable s.source)
    (h : (ofLiterals es).run s = .ok s') : s'.source = s.source ∧ s'.skew = s.skew := by
  have hend := (skew_ofLiterals es hs).2
  rwa [h] at hend

/-- **When a chain of literals succeeds**, from any position. -/
theorem exists_run_ofLiterals_iff (es : List String) (hs : Addressable s.source) :
    (∃ s', (ofLiterals es).run s = .ok s') ↔
      s.rest.startsWith (String.join es) = true ∧ ∀ e ∈ es, Fits s.skew e := by
  induction es generalizing s with
  | nil => simp [run]
  | cons e es ih =>
    have htag := Tag.exists_run_eq_ok_iff_fits (t := ⟨e⟩) hs
    rw [String.join_cons, List.forall_mem_cons]
    by_cases h : ∃ s₁, Tag.run ⟨e⟩ s = .ok s₁
    · have hfits := (htag.1 h).2
      obtain ⟨s₁, h₁⟩ := h
      have htaken := Tag.taken_of_run_eq_ok hs h₁
      rw [run_ofLiterals_cons_of_ok h₁, ih (htaken.source ▸ hs), htaken.rest,
        startsWith_append_iff, Tag.skew_of_run_eq_ok hs h₁, and_iff_right hfits]
    · rw [run_ofLiterals_cons_of_error (Tag.run_eq_error_of_not_exists h)]
      constructor
      · rintro ⟨s', hs'⟩
        cases hs'
      · rintro ⟨hrest, hfits, -⟩
        exact absurd (htag.2 ⟨startsWith_of_append hrest, hfits⟩) h

/-- **The first literal that does not fit ends the chain**, where those before it lead. -/
theorem run_ofLiterals_of_misfit (hs : Addressable s.source)
    (hrest : s.rest.startsWith (String.join (xs ++ e :: ys)) = true)
    (hxs : ∀ x ∈ xs, Fits s.skew x) (he : ¬Fits s.skew e) :
    ∃ s₁, (ofLiterals xs).run s = .ok s₁ ∧
      (ofLiterals (xs ++ e :: ys)).run s = .error ⟨s₁, .tag⟩ ∧
      (ofLiterals (xs ++ e :: ys)).trail s = (ofLiterals xs).trail s := by
  rw [String.join_append] at hrest
  obtain ⟨s₁, h₁⟩ := (exists_run_ofLiterals_iff _ hs).2 ⟨startsWith_of_append hrest, hxs⟩
  obtain ⟨hsource, hskew⟩ := source_skew_of_run_ofLiterals hs h₁
  have hfail : Tag.run ⟨e⟩ s₁ = .error ⟨s₁, .tag⟩ := by
    apply Tag.run_eq_error_of_not_exists
    intro h
    have hfits := ((Tag.exists_run_eq_ok_iff_fits (hsource ▸ hs)).1 h).2
    exact he (hskew ▸ hfits)
  rw [ofLiterals_append]
  refine ⟨s₁, h₁, ?_, ?_⟩
  · rw [run_append, h₁]
    exact run_ofLiterals_cons_of_error hfail
  · refine (Run.trail_append h₁).trans ?_
    exact (congrArg _ (trail_ofLiterals_cons_of_error hfail)).trans (List.append_nil _)

/-! ## Literals joined -/

/-- The stop of a chain is the clamped sum, as if the literals were one. -/
theorem toNat_stop_of_run_ofLiterals (h : (ofLiterals es).run s = .ok s') :
    s'.stop.toNat =
      min (s.stop.toNat + (String.join es).utf8ByteSize) Position.largest := by
  induction es generalizing s with
  | nil =>
    cases h
    exact (Nat.min_eq_left (Position.toNat_le_largest _)).symm
  | cons e es ih =>
    obtain ⟨s₁, h₁, hes⟩ := run_ofLiterals_cons_eq_ok_iff.1 h
    obtain ⟨-, rfl⟩ := Tag.run_eq_ok_iff.1 h₁
    have hstop : (Tag.window ⟨e⟩ s).stop.toNat =
        min (s.stop.toNat + e.utf8ByteSize) Position.largest := Tag.toNat_stop_window ⟨e⟩ s
    -- a stop that was clamped stays at the largest position
    rw [ih hes, hstop, String.join_cons, String.utf8ByteSize_append]
    omega

/-- A chain that succeeds ends where the one tag of the joined literals does. -/
theorem exists_run_join_of_run_ofLiterals (hs : Addressable s.source)
    (h : (ofLiterals es).run s = .ok s') :
    ∃ p, Tag.run ⟨String.join es⟩ s = .ok p ∧
      p.stop = s'.stop ∧ p.rest = s'.rest ∧ p.atEnd = s'.atEnd := by
  obtain ⟨hrest, hfits⟩ := (exists_run_ofLiterals_iff _ hs).1 ⟨s', h⟩
  obtain ⟨p, hp⟩ := (Tag.exists_run_eq_ok_iff_fits (t := ⟨String.join es⟩) hs).2
    ⟨hrest, fits_join hfits⟩
  obtain ⟨hsource, -⟩ := source_skew_of_run_ofLiterals hs h
  have hstop : p.stop = s'.stop := by
    apply UInt64.toNat_inj.1
    rw [(Tag.run_eq_ok_iff.1 hp).2, Tag.toNat_stop_window, toNat_stop_of_run_ofLiterals h]
  have hrest : p.rest = s'.rest :=
    Snippet.rest_congr ((Tag.taken_of_run_eq_ok hs hp).source.trans hsource.symm) hstop
  exact ⟨p, hp, hstop, hrest, Snippet.atEnd_congr hrest⟩

/-- **Literals in sequence against one tag of them joined**, from any position. If the chain
succeeds then so does the tag, and it ends at the same place. If the tag succeeds then the chain
does exactly if all literals fit the skew, and fails at the first that does not fit. The skew is the
same all along the chain; where it is zero, the chain and the tag agree. -/
theorem run_ofLiterals_join (es : List String) (s : Snippet) (hs : Addressable s.source) :
    (∀ s', (ofLiterals es).run s = .ok s' →
      ((ofLiterals es).trail s).getLastD s = s' ∧
      ∃ p, Tag.run ⟨String.join es⟩ s = .ok p ∧
        p.stop = s'.stop ∧ p.rest = s'.rest ∧ p.atEnd = s'.atEnd) ∧
    (∀ p, Tag.run ⟨String.join es⟩ s = .ok p →
      ((∀ e ∈ es, Fits s.skew e) → ∃ s', (ofLiterals es).run s = .ok s') ∧
      ((¬∀ e ∈ es, Fits s.skew e) →
        ∃ xs e ys s₁, es = xs ++ e :: ys ∧ (∀ x ∈ xs, Fits s.skew x) ∧ ¬Fits s.skew e ∧
          (ofLiterals xs).run s = .ok s₁ ∧ (ofLiterals es).run s = .error ⟨s₁, .tag⟩ ∧
          (ofLiterals es).trail s = (ofLiterals xs).trail s)) ∧
    (∀ p ∈ (ofLiterals es).trail s, p.skew = s.skew) ∧
    (∀ f, (ofLiterals es).run s = .error f → f.snippet.skew = s.skew) ∧
    (IsBoundary s.source s.stop.toNat ∨ s.source.utf8ByteSize ≤ s.stop.toNat →
      ((∃ s', (ofLiterals es).run s = .ok s') ↔ ∃ p, Tag.run ⟨String.join es⟩ s = .ok p)) := by
  have htag := Tag.exists_run_eq_ok_iff_fits (t := ⟨String.join es⟩) hs
  have hchain := exists_run_ofLiterals_iff es hs
  obtain ⟨htrail, -, hend⟩ := skew_ofLiterals es hs
  refine ⟨?_, ?_, fun p hp => (htrail p hp).2, fun f hf => by rwa [hf] at hend, ?_⟩
  · intro s' h
    exact ⟨Run.getLastD_trail h, exists_run_join_of_run_ofLiterals hs h⟩
  · intro p hp
    have hrest := (htag.1 ⟨p, hp⟩).1
    refine ⟨fun hfits => hchain.2 ⟨hrest, hfits⟩, fun hmisfit => ?_⟩
    obtain ⟨xs, e, ys, rfl, hxs, he⟩ := exists_first_misfit hmisfit
    obtain ⟨s₁, h₁, hrun, hpassed⟩ := run_ofLiterals_of_misfit hs hrest hxs he
    exact ⟨xs, e, ys, s₁, rfl, hxs, he, h₁, hrun, hpassed⟩
  · intro h
    rw [htag, hchain, Snippet.skew_eq_zero_iff.2 h]
    exact and_congr_right fun _ => iff_of_true (fun e _ => fits_zero e) (fits_zero _)

/-- One byte before the end of a character, `xé` is matched as a whole and not as `x` and `é`: the
failure is inside the same character. -/
theorem run_ofLiterals_join_inside_character :
    Addressable "€xé" ∧
      (∃ p, Tag.run ⟨String.join ["x", "é"]⟩ ⟨"€xé", 0, 2⟩ = .ok p) ∧
      ∃ f, (ofLiterals ["x", "é"]).run ⟨"€xé", 0, 2⟩ = .error f ∧ f.snippet.skew = 1 := by
  have hs : Addressable "€xé" := by decide
  obtain ⟨-, hjoin, -, hskew, -⟩ := run_ofLiterals_join ["x", "é"] ⟨"€xé", 0, 2⟩ hs
  have hp : ∃ p, Tag.run ⟨String.join ["x", "é"]⟩ ⟨"€xé", 0, 2⟩ = .ok p :=
    ⟨⟨"€xé", 2, 3⟩, Tag.run_eq_ok_iff.2 ⟨by decide +kernel, by decide +kernel⟩⟩
  obtain ⟨p, hp⟩ := hp
  obtain ⟨xs, e, ys, s₁, -, -, -, -, hrun, -⟩ := (hjoin p hp).2 (by decide +kernel)
  exact ⟨hs, ⟨p, hp⟩, _, hrun, (hskew _ hrun).trans (by decide +kernel)⟩

end Chain

end TextCursor
