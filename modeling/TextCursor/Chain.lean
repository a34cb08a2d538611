import TextCursor.Run
import TextCursor.Tag

/-!
# Chains

A chain runs its steps one after another, each from the snippet that the one before it gave. The
first tag that fails ends the chain with its failure.

* `Step.run_of_accepts`, `Step.run_of_not_accepts`: what a step does, by the text that it reads.
* `Chain.invariant`: what every step keeps holds all along a chain, and where it fails.
* `Chain.rest_of_run_ofLiterals`: a chain of literals takes them off the front of the rest.
-/

namespace TextCursor

/-- One step of a chain. -/
inductive Step where
  | slice (n : Position)
  | tag (t : Tag)
deriving DecidableEq

namespace Step

/-- Runs one step: a slice always succeeds, a tag may fail. -/
def run : Step → Parser Snippet
  | .slice n => fun s => .ok (s.slice n)
  | .tag t => t.run

/-- The number of bytes that a step takes if it succeeds. -/
def width : Step → Position
  | .slice n => n
  | .tag t => t.width

/-- Whether `p` has the literal of the step, if the step has one. -/
def Accepts : Step → Snippet → Prop
  | .slice _, _ => True
  | .tag t, p => p.fragment = t.expected

/-- A step looks at nothing but the text. -/
theorem accepts_congr (st : Step) {p q : Snippet} (h : p.fragment = q.fragment) :
    st.Accepts p ↔ st.Accepts q := by
  cases st with
  | slice n => exact Iff.rfl
  | tag t => rw [Accepts, Accepts, h]

theorem run_of_accepts {st : Step} {s : Snippet} (h : st.Accepts (s.slice st.width)) :
    st.run s = .ok (s.slice st.width) := by
  cases st with
  | slice n => rfl
  | tag t => exact Tag.run_eq_ok_iff.2 ⟨h, rfl⟩

theorem run_of_not_accepts {st : Step} {s : Snippet} (h : ¬st.Accepts (s.slice st.width)) :
    st.run s = .error ⟨s, .tag⟩ := by
  cases st with
  | slice n => exact absurd trivial h
  | tag t => exact Tag.run_eq_error_iff.2 ⟨h, rfl⟩

theorem eq_slice_of_run_eq_ok {st : Step} {s s' : Snippet} (h : st.run s = .ok s') :
    s' = s.slice st.width := by
  cases st with
  | slice n => cases h; rfl
  | tag t => exact (Tag.run_eq_ok_iff.1 h).2

theorem eq_of_run_eq_error {st : Step} {s : Snippet} {f : Failure} (h : st.run s = .error f) :
    f = ⟨s, .tag⟩ := by
  cases st with
  | slice n => cases h
  | tag t => exact (Tag.run_eq_error_iff.1 h).2

end Step

/-- Steps to run one after another. -/
abbrev Chain := List Step

namespace Chain

/-- A tag for each literal. -/
def ofLiterals (es : List String) : Chain := es.map fun e => .tag ⟨e⟩

/-- Runs the steps in turn; it gives the last snippet, or the first failure. -/
def run (steps : Chain) : Parser Snippet := Run.final Step.run steps

/-- The snippets that the steps give, up to the one that fails. -/
def trail (steps : Chain) (s : Snippet) : List Snippet := Run.trail Step.run steps s

/-- The text that each step took. -/
def fragments (steps : Chain) : Parser (List String) := fun s =>
  (steps.run s).map fun _ => (steps.trail s).map Snippet.fragment

/-- The widths of the steps: the cuts that the chain makes if no tag fails. -/
def widths (steps : Chain) : List Position := steps.map Step.width

theorem run_append (xs ys : Chain) (s : Snippet) :
    run (xs ++ ys) s = xs.run s >>= ys.run := Run.final_append

/-- **What every step keeps** holds of all snippets of a chain, and of the one it ends with, also if
it fails. -/
theorem invariant {P : Snippet → Prop} {steps : Chain} {s : Snippet}
    (hstep : ∀ st ∈ steps, ∀ p p', P p → st.run p = .ok p' → P p') (h : P s) :
    (∀ p ∈ steps.trail s, P p) ∧ P (Outcome.resume (steps.run s)) := by
  obtain ⟨htrail, hok, herror⟩ := Run.invariant hstep h
  refine ⟨htrail, ?_⟩
  cases hrun : steps.run s with
  | ok s' => exact hok s' hrun
  | error f =>
    obtain ⟨st, -, p, hp, hfail⟩ := herror f hrun
    obtain rfl := Step.eq_of_run_eq_error hfail
    exact hp

theorem source_of_mem_trail {steps : Chain} {s p : Snippet} (h : p ∈ steps.trail s) :
    p.source = s.source := by
  refine (invariant (P := fun p => p.source = s.source) ?_ rfl).1 p h
  intro st _ p p' hp hst
  rw [Step.eq_slice_of_run_eq_ok hst, Snippet.source_slice, hp]

/-! ## Chains of literals -/

section

variable {e : String} {es : List String} {s s₁ s' : Snippet} {f : Failure}

@[simp] theorem ofLiterals_nil : ofLiterals [] = [] := rfl

theorem ofLiterals_append (xs ys : List String) :
    ofLiterals (xs ++ ys) = ofLiterals xs ++ ofLiterals ys := List.map_append

theorem mem_ofLiterals {st : Step} : st ∈ ofLiterals es ↔ ∃ e ∈ es, .tag ⟨e⟩ = st := List.mem_map

theorem run_ofLiterals_cons_of_ok (h : Tag.run ⟨e⟩ s = .ok s₁) :
    (ofLiterals (e :: es)).run s = (ofLiterals es).run s₁ := by
  have hst : Step.run (.tag ⟨e⟩) s = .ok s₁ := h
  exact Run.final_cons_of_ok hst

theorem trail_ofLiterals_cons_of_ok (h : Tag.run ⟨e⟩ s = .ok s₁) :
    (ofLiterals (e :: es)).trail s = s₁ :: (ofLiterals es).trail s₁ := by
  have hst : Step.run (.tag ⟨e⟩) s = .ok s₁ := h
  exact Run.trail_cons_of_ok hst

theorem run_ofLiterals_cons_of_error (h : Tag.run ⟨e⟩ s = .error f) :
    (ofLiterals (e :: es)).run s = .error f := by
  have hst : Step.run (.tag ⟨e⟩) s = .error f := h
  exact Run.final_cons_of_error hst

theorem trail_ofLiterals_cons_of_error (h : Tag.run ⟨e⟩ s = .error f) :
    (ofLiterals (e :: es)).trail s = [] := by
  have hst : Step.run (.tag ⟨e⟩) s = .error f := h
  exact Run.trail_cons_of_error hst

theorem run_ofLiterals_cons_eq_ok_iff :
    (ofLiterals (e :: es)).run s = .ok s' ↔
      ∃ s₁, Tag.run ⟨e⟩ s = .ok s₁ ∧ (ofLiterals es).run s₁ = .ok s' := by
  cases h : Tag.run ⟨e⟩ s with
  | ok s₁ => simp [run_ofLiterals_cons_of_ok h]
  | error f => simp [run_ofLiterals_cons_of_error h]

theorem map_fragment_trail_ofLiterals (h : (ofLiterals es).run s = .ok s') :
    ((ofLiterals es).trail s).map Snippet.fragment = es := by
  induction es generalizing s with
  | nil => rfl
  | cons e es ih =>
    obtain ⟨s₁, h₁, hes⟩ := run_ofLiterals_cons_eq_ok_iff.1 h
    obtain ⟨hfragment, hwindow⟩ := Tag.run_eq_ok_iff.1 h₁
    rw [trail_ofLiterals_cons_of_ok h₁, List.map_cons, ih hes, hwindow, hfragment]

theorem rest_of_run_ofLiterals (h : (ofLiterals es).run s = .ok s') :
    s.rest = String.join es ++ s'.rest := by
  induction es generalizing s with
  | nil =>
    cases h
    simp
  | cons e es ih =>
    obtain ⟨s₁, h₁, hes⟩ := run_ofLiterals_cons_eq_ok_iff.1 h
    rw [Tag.rest_of_run_eq_ok h₁, ih hes, String.join_cons, String.append_assoc]

end

end Chain

end TextCursor
