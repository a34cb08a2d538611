import TextCursor.Chain
import TextCursor.Retry

/-!
# Failed tags take nothing

A tag that fails leaves a retry run where it was, so the run is the chain of the literals that
matched, and what failed may be left out or tried again.

* `run_taken`, `trail_taken`: the chain of the literals that matched (`taken`) succeeds, passes the
  successes of the run and ends where the run does.
* `getElem?_outcomes`: every tag is tried where the last success before it ended (`reached`).
* `outcomes_append`, `outcomes_replicate_of_error`: hence a failed tag may be left out or repeated
  (`outcomes_edit`).
* `failures_take_nothing`: all of this of a whole run.
-/

namespace TextCursor.Retry

variable {t : Tag} {ts as : List Tag} {s s' : Snippet} {f : Failure}

/-- The literals that a retry run matches, in order. -/
def taken (ts : List Tag) (s : Snippet) : List String :=
  ((ts.zip (outcomes ts s)).filter fun x => x.2.isOk).map fun x => x.1.expected

/-- The snippets of the successes among some outcomes, in order. -/
def successes (os : List Outcome) : List Snippet := os.filterMap Except.toOption

/-- The snippet of the last success, or the start if there is none. -/
def reached (os : List Outcome) (s : Snippet) : Snippet := (successes os).getLastD s

/-! ## The literals that matched -/

theorem resume_of_error (h : t.run s = .error f) : Outcome.resume (t.run s) = s := by
  rw [h, (Tag.run_eq_error_iff.1 h).2]
  rfl

theorem outcomes_cons_of_ok (h : t.run s = .ok s') :
    outcomes (t :: ts) s = .ok s' :: outcomes ts s' := by
  rw [outcomes, h]
  rfl

theorem outcomes_cons_of_error (h : t.run s = .error f) :
    outcomes (t :: ts) s = .error f :: outcomes ts s := by
  rw [outcomes, resume_of_error h, h]

theorem finish_cons_of_error (h : t.run s = .error f) : finish (t :: ts) s = finish ts s := by
  rw [finish_cons, resume_of_error h]

theorem taken_cons_of_ok (h : t.run s = .ok s') :
    taken (t :: ts) s = t.expected :: taken ts s' := by
  rw [taken, outcomes_cons_of_ok h]
  rfl

theorem taken_cons_of_error (h : t.run s = .error f) : taken (t :: ts) s = taken ts s := by
  rw [taken, outcomes_cons_of_error h]
  rfl

/-- **The literals that matched, run as one chain**, succeed and end where the retry run does. -/
theorem run_taken (ts : List Tag) (s : Snippet) :
    (Chain.ofLiterals (taken ts s)).run s = .ok (finish ts s) := by
  induction ts generalizing s with
  | nil => rfl
  | cons t ts ih =>
    cases h : t.run s with
    | ok s' =>
      rw [taken_cons_of_ok h, Chain.run_ofLiterals_cons_of_ok h, ih, finish_cons, h]
      rfl
    | error f => rw [taken_cons_of_error h, finish_cons_of_error h, ih]

theorem trail_taken (ts : List Tag) (s : Snippet) :
    (Chain.ofLiterals (taken ts s)).trail s = successes (outcomes ts s) := by
  induction ts generalizing s with
  | nil => rfl
  | cons t ts ih =>
    cases h : t.run s with
    | ok s' =>
      rw [taken_cons_of_ok h, Chain.trail_ofLiterals_cons_of_ok h, ih, outcomes_cons_of_ok h]
      rfl
    | error f =>
      rw [taken_cons_of_error h, ih, outcomes_cons_of_error h]
      rfl

theorem reached_outcomes (ts : List Tag) (s : Snippet) :
    reached (outcomes ts s) s = finish ts s := by
  rw [reached, ← trail_taken]
  exact Run.getLastD_trail (run_taken ts s)

/-! ## Where a tag is tried -/

theorem outcomes_take (ts : List Tag) (s : Snippet) (j : Nat) :
    outcomes (ts.take j) s = (outcomes ts s).take j := by
  induction ts generalizing s j with
  | nil => simp [outcomes]
  | cons t ts ih =>
    cases j with
    | zero => rfl
    | succ j => rw [List.take_succ_cons, outcomes, outcomes, List.take_succ_cons, ih]

theorem getElem?_outcomes (ts : List Tag) (s : Snippet) (j : Nat) :
    (outcomes ts s)[j]? = ts[j]?.map fun t => t.run (finish (ts.take j) s) := by
  induction ts generalizing s j with
  | nil => rfl
  | cons t ts ih =>
    cases j with
    | zero => rfl
    | succ j =>
      rw [outcomes, List.getElem?_cons_succ, ih, List.getElem?_cons_succ, List.take_succ_cons,
        finish_cons]

/-- **Every tag is tried where the last success before it ended.** -/
theorem getElem?_outcomes_reached (ts : List Tag) (s : Snippet) (j : Nat) :
    (outcomes ts s)[j]? = ts[j]?.map fun t => t.run (reached ((outcomes ts s).take j) s) := by
  rw [getElem?_outcomes, ← outcomes_take, reached_outcomes]

/-! ## Leaving out and repeating -/

theorem finish_append (as bs : List Tag) (s : Snippet) :
    finish (as ++ bs) s = finish bs (finish as s) := List.foldl_append

theorem outcomes_append (as bs : List Tag) (s : Snippet) :
    outcomes (as ++ bs) s = outcomes as s ++ outcomes bs (finish as s) := by
  induction as generalizing s with
  | nil => rfl
  | cons a as ih => rw [List.cons_append, outcomes, outcomes, ih, finish_cons, List.cons_append]

theorem outcomes_replicate_of_error (h : t.run s = .error f) (n : Nat) :
    outcomes (List.replicate n t) s = List.replicate n (.error f) := by
  induction n with
  | zero => rfl
  | succ n ih => rw [List.replicate_succ, outcomes_cons_of_error h, ih, List.replicate_succ]

theorem finish_replicate_of_error (h : t.run s = .error f) (n : Nat) :
    finish (List.replicate n t) s = s := by
  induction n with
  | zero => rfl
  | succ n ih => rw [List.replicate_succ, finish_cons_of_error h, ih]

/-- A tag that fails where it is tried, tried `n` times there. -/
theorem outcomes_edit (bs : List Tag) (h : t.run (finish as s) = .error f) (n : Nat) :
    outcomes (as ++ List.replicate n t ++ bs) s =
        outcomes as s ++ List.replicate n (.error f) ++ outcomes bs (finish as s) ∧
      finish (as ++ List.replicate n t ++ bs) s = finish bs (finish as s) := by
  have hstay : finish (as ++ List.replicate n t) s = finish as s := by
    rw [finish_append, finish_replicate_of_error h]
  constructor
  · rw [outcomes_append, hstay, outcomes_append, outcomes_replicate_of_error h]
  · rw [finish_append, hstay]

/-- **A failed tag takes nothing.** A retry run ends where the chain of the literals that matched
does, which succeeds, and the literals are what it took off the rest. Each tag is tried, and each
failure stands, where the last success before it ended. A failed tag may be left out, or tried any
number of times where it stands, and nothing else changes. -/
theorem failures_take_nothing (ts : List Tag) (s : Snippet) :
    (Chain.ofLiterals (taken ts s)).run s = .ok (finish ts s) ∧
    (Chain.ofLiterals (taken ts s)).trail s = successes (outcomes ts s) ∧
    String.join (taken ts s) ++ (finish ts s).rest = s.rest ∧
    (∀ j, (outcomes ts s)[j]? =
      ts[j]?.map fun t : Tag => t.run (reached ((outcomes ts s).take j) s)) ∧
    (∀ j f, (outcomes ts s)[j]? = some (.error f) →
      f.snippet = reached ((outcomes ts s).take j) s ∧ f.reason = .tag) ∧
    (∀ as t bs f, ts = as ++ t :: bs → (outcomes ts s)[as.length]? = some (.error f) → ∀ n,
      outcomes (as ++ List.replicate n t ++ bs) s =
          (outcomes ts s).take as.length ++ List.replicate n (.error f) ++
            (outcomes ts s).drop (as.length + 1) ∧
        finish (as ++ List.replicate n t ++ bs) s = finish ts s) := by
  refine ⟨run_taken ts s, trail_taken ts s, (Chain.rest_of_run_ofLiterals (run_taken ts s)).symm,
    getElem?_outcomes_reached ts s, ?_, ?_⟩
  · intro j f h
    rw [getElem?_outcomes_reached, Option.map_eq_some_iff] at h
    obtain ⟨t, -, ht⟩ := h
    obtain ⟨-, rfl⟩ := Tag.run_eq_error_iff.1 ht
    exact ⟨rfl, rfl⟩
  · intro as t bs f hts h n
    subst hts
    have ht : t.run (finish as s) = .error f := by
      rw [getElem?_outcomes] at h
      simpa using h
    obtain ⟨houtcomes, hfinish⟩ := outcomes_edit bs ht n
    -- the list itself tries the tag once
    have hone : outcomes (as ++ t :: bs) s =
        outcomes as s ++ .error f :: outcomes bs (finish as s) := by
      rw [outcomes_append, outcomes_cons_of_error ht]
    have htake : (outcomes (as ++ t :: bs) s).take as.length = outcomes as s := by
      rw [hone]
      exact List.take_left' (length_outcomes as s)
    have hdrop : (outcomes (as ++ t :: bs) s).drop (as.length + 1) =
        outcomes bs (finish as s) := by
      rw [hone, List.append_cons]
      exact List.drop_left' (by simp)
    constructor
    · rw [houtcomes, htake, hdrop]
    · rw [hfinish, finish_append, finish_cons_of_error ht]

end TextCursor.Retry
