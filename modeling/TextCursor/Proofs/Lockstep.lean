import Mathlib.Data.List.Forall2
import TextCursor.Run

/-!
# Runs in lockstep

Two runs take the same commands, each with its own step function and its own states. If every step
from related states gives related states or fails on both sides, the two runs give related states at
every step or fail at the same one.

* `Agree`: two outcomes of the same kind, related.
* `lockstep`: the step lemma gives the run lemma, by induction on the commands.
-/

namespace TextCursor.Run

variable {α σ τ ε δ : Type}

/-- Both outcomes are states, related by `R`, or both are failures, related by `E`. -/
inductive Agree (R : σ → τ → Prop) (E : ε → δ → Prop) : Except ε σ → Except δ τ → Prop
  | ok {s : σ} {t : τ} : R s t → Agree R E (.ok s) (.ok t)
  | error {e : ε} {d : δ} : E e d → Agree R E (.error e) (.error d)

theorem Agree.imp {R R' : σ → τ → Prop} {E E' : ε → δ → Prop} {o : Except ε σ} {o' : Except δ τ}
    (h : Agree R E o o') (hR : ∀ s t, R s t → R' s t) (hE : ∀ e d, E e d → E' e d) :
    Agree R' E' o o' := by
  cases h with
  | ok h => exact .ok (hR _ _ h)
  | error h => exact .error (hE _ _ h)

variable {step : α → σ → Except ε σ} {step' : α → τ → Except δ τ} {W R : σ → τ → Prop}
  {E : ε → δ → Prop}

/-- **Two runs agree at every step** if every step agrees. A step may start from states of which
less is known (`W`) than of those that it gives (`R`). -/
theorem lockstep (hRW : ∀ s t, R s t → W s t)
    (hstep : ∀ a s t, W s t → Agree R E (step a s) (step' a t)) (as : List α) {s : σ} {t : τ}
    (h : W s t) :
    List.Forall₂ R (trail step as s) (trail step' as t) ∧
      Agree W E (final step as s) (final step' as t) := by
  induction as generalizing s t with
  | nil => exact ⟨.nil, .ok h⟩
  | cons a as ih =>
    have ha := hstep a s t h
    generalize hs : step a s = o at ha
    generalize ht : step' a t = o' at ha
    cases ha with
    | ok hR =>
      obtain ⟨htrail, hfinal⟩ := ih (hRW _ _ hR)
      rw [trail_cons_of_ok hs, trail_cons_of_ok ht, final_cons_of_ok hs, final_cons_of_ok ht]
      exact ⟨.cons hR htrail, hfinal⟩
    | error hE =>
      rw [trail_cons_of_error hs, trail_cons_of_error ht, final_cons_of_error hs,
        final_cons_of_error ht]
      exact ⟨.nil, .error hE⟩

end TextCursor.Run
