import Mathlib.Data.Nat.Find
import TextCursor.Chain

/-!
# A chain without its checks

Erasing a chain puts a slice of the same width in the place of every tag. The erased chain never
fails, and a chain does what its erasure does, up to the first tag whose literal is not the text
that the erasure reads there. So the checks may be made after the run.

* `run_erase`, `trail_erase`: the erased chain slices again and again.
* `AgreesAt`: the check of one step, made on the erased run; `agreesAt_zero` and `agreesAt_succ` are
  its recursion.
* `run_eq_of_agreesAt`: if all checks hold, the two runs are one.
* `run_take_append_of_refusedAt`: the first check that does not hold ends the chain there, whatever
  comes after it.
* `run_erasure`: both, and how a chain is divided.
-/

namespace TextCursor

namespace Chain

/-! ## The erased run -/

/-- The chain with a slice of the same width in the place of every step. -/
def erase (steps : Chain) : Chain := steps.map fun st => .slice st.width

variable {steps : Chain} {st : Step} {s : Snippet} {j : Nat}

theorem trail_erase_cons :
    trail (erase (st :: steps)) s = s.slice st.width :: (erase steps).trail (s.slice st.width) :=
  rfl

theorem run_erase (steps : Chain) (s : Snippet) :
    steps.erase.run s = .ok (s.sliceAll steps.widths) := by
  induction steps generalizing s with
  | nil => rfl
  | cons st steps ih => exact ih (s.slice st.width)

theorem trail_erase (steps : Chain) (s : Snippet) :
    steps.erase.trail s = s.pieces steps.widths := by
  induction steps generalizing s with
  | nil => rfl
  | cons st steps ih =>
    rw [trail_erase_cons, ih]
    rfl

/-- Whether step `j` accepts the snippet that the erased run gives there. -/
def AgreesAt (steps : Chain) (s : Snippet) (j : Nat) : Prop :=
  ∀ st p, steps[j]? = some st → (steps.erase.trail s)[j]? = some p → st.Accepts p

/-- `j` is the first step that does not accept what the erased run reads. -/
def RefusedAt (steps : Chain) (s : Snippet) (j : Nat) : Prop :=
  (∀ i < j, steps.AgreesAt s i) ∧ ¬steps.AgreesAt s j

theorem agreesAt_zero : AgreesAt (st :: steps) s 0 ↔ st.Accepts (s.slice st.width) := by
  unfold AgreesAt
  rw [trail_erase_cons]
  refine ⟨fun h => h _ _ rfl rfl, fun h st' p hst hp => ?_⟩
  cases hst
  cases hp
  exact h

theorem agreesAt_succ :
    AgreesAt (st :: steps) s (j + 1) ↔ AgreesAt steps (s.slice st.width) j := Iff.rfl

theorem agreesAt_of_length_le (h : steps.length ≤ j) : steps.AgreesAt s j := by
  intro st p hst
  rw [List.getElem?_eq_none h] at hst
  cases hst

/-! ## The checked run -/

/-- **If every step agrees, the checks change nothing.** -/
theorem run_eq_of_agreesAt (h : ∀ j, steps.AgreesAt s j) :
    steps.run s = steps.erase.run s ∧ steps.trail s = steps.erase.trail s := by
  induction steps generalizing s with
  | nil => exact ⟨rfl, rfl⟩
  | cons st steps ih =>
    have hst := Step.run_of_accepts (agreesAt_zero.1 (h 0))
    obtain ⟨hrun, htrail⟩ := ih fun j => agreesAt_succ.1 (h (j + 1))
    refine ⟨?_, ?_⟩
    · exact (Run.final_cons_of_ok hst).trans hrun
    · rw [trail_erase_cons, ← htrail]
      exact Run.trail_cons_of_ok hst

/-- **The first step that does not agree ends the chain** where the erased run stood before it. -/
theorem run_take_append_of_refusedAt (h : steps.RefusedAt s j) :
    ∃ p, (s :: steps.erase.trail s)[j]? = some p ∧ ∀ zs : Chain,
      run (steps.take (j + 1) ++ zs) s = .error ⟨p, .tag⟩ ∧
        trail (steps.take (j + 1) ++ zs) s = (steps.erase.trail s).take j := by
  obtain ⟨hbefore, hat⟩ := h
  induction steps generalizing s j with
  | nil => exact absurd (agreesAt_of_length_le (Nat.zero_le j)) hat
  | cons st steps ih =>
    cases j with
    | zero =>
      have hst := Step.run_of_not_accepts (mt agreesAt_zero.2 hat)
      exact ⟨s, rfl, fun zs => ⟨Run.final_cons_of_error hst, Run.trail_cons_of_error hst⟩⟩
    | succ j =>
      have hst := Step.run_of_accepts (agreesAt_zero.1 (hbefore 0 (Nat.succ_pos j)))
      obtain ⟨p, hp, hzs⟩ := ih
        (fun i hi => agreesAt_succ.1 (hbefore (i + 1) (Nat.succ_lt_succ hi)))
        (mt agreesAt_succ.2 hat)
      refine ⟨p, hp, fun zs => ?_⟩
      obtain ⟨hrun, htrail⟩ := hzs zs
      refine ⟨(Run.final_cons_of_ok hst).trans hrun, (Run.trail_cons_of_ok hst).trans ?_⟩
      rw [trail_erase_cons, List.take_succ_cons, ← htrail]
      rfl

theorem run_of_refusedAt (h : steps.RefusedAt s j) :
    ∃ p, (s :: steps.erase.trail s)[j]? = some p ∧ steps.run s = .error ⟨p, .tag⟩ ∧
      steps.trail s = (steps.erase.trail s).take j ∧
      ∀ zs : Chain, run (steps.take (j + 1) ++ zs) s = .error ⟨p, .tag⟩ := by
  obtain ⟨p, hp, hzs⟩ := run_take_append_of_refusedAt h
  obtain ⟨hrun, htrail⟩ := hzs (steps.drop (j + 1))
  rw [List.take_append_drop] at hrun htrail
  exact ⟨p, hp, hrun, htrail, fun zs => (hzs zs).1⟩

theorem exists_refusedAt (h : ¬∀ j, steps.AgreesAt s j) : ∃ j, steps.RefusedAt s j := by
  classical
  have hex : ∃ j, ¬steps.AgreesAt s j := not_forall.1 h
  exact ⟨Nat.find hex, fun i hi => not_not.1 (Nat.find_min hex hi), Nat.find_spec hex⟩

/-- A chain succeeds exactly if every step agrees with the erased run. -/
theorem exists_run_eq_ok_iff_agreesAt :
    (∃ s', steps.run s = .ok s') ↔ ∀ j, steps.AgreesAt s j := by
  refine ⟨fun ⟨s', hs'⟩ => ?_, fun h => ?_⟩
  · by_contra hno
    obtain ⟨j, hj⟩ := exists_refusedAt hno
    obtain ⟨p, -, hrun, -⟩ := run_of_refusedAt hj
    rw [hrun] at hs'
    cases hs'
  · rw [(run_eq_of_agreesAt h).1]
    exact ⟨_, run_erase steps s⟩

/-- **A chain is its erasure, with the checks made afterwards.** It succeeds exactly if every step
agrees with the erased run, and is then that run; else it fails where the erased run stood before
the first step that does not agree, and nothing after that step matters. Dividing a chain passes on
its last snippet, or its failure. -/
theorem run_erasure (steps : Chain) (s : Snippet) :
    steps.erase.run s = .ok (s.sliceAll steps.widths) ∧
    steps.erase.trail s = s.pieces steps.widths ∧
    ((∃ s', steps.run s = .ok s') ↔ ∀ j, steps.AgreesAt s j) ∧
    (∀ s', steps.run s = .ok s' →
      steps.erase.run s = .ok s' ∧ steps.trail s = steps.erase.trail s) ∧
    ((¬∃ s', steps.run s = .ok s') → ∃ j, steps.RefusedAt s j) ∧
    (∀ j, steps.RefusedAt s j → ∃ p, (s :: steps.erase.trail s)[j]? = some p ∧
      steps.run s = .error ⟨p, .tag⟩ ∧ steps.trail s = (steps.erase.trail s).take j ∧
      ∀ zs : Chain, run (steps.take (j + 1) ++ zs) s = .error ⟨p, .tag⟩) ∧
    (∀ xs ys : Chain,
      (∀ s', xs.run s = .ok s' → (xs.trail s).getLastD s = s' ∧
        run (xs ++ ys) s = ys.run s' ∧ trail (xs ++ ys) s = xs.trail s ++ ys.trail s') ∧
      (∀ f, xs.run s = .error f →
        run (xs ++ ys) s = .error f ∧ trail (xs ++ ys) s = xs.trail s)) := by
  refine ⟨run_erase steps s, trail_erase steps s, exists_run_eq_ok_iff_agreesAt,
    fun s' h => ?_, fun h => ?_, fun j h => run_of_refusedAt h,
    fun xs ys => ⟨fun s' h => ?_, fun f h => ?_⟩⟩
  · obtain ⟨hrun, htrail⟩ := run_eq_of_agreesAt (exists_run_eq_ok_iff_agreesAt.1 ⟨s', h⟩)
    exact ⟨hrun ▸ h, htrail⟩
  · exact exists_refusedAt (mt exists_run_eq_ok_iff_agreesAt.2 h)
  · refine ⟨Run.getLastD_trail h, ?_, Run.trail_append h⟩
    rw [run_append, h]
    rfl
  · exact ⟨Run.final_append_of_error h, Run.trail_append_of_error h⟩

end Chain

end TextCursor
