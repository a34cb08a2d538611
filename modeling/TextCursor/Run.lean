/-!
# Runs

A run applies a step function to a state for each command of a list and ends at the first failure.
`final` is how it ends, `trail` the states it passes.

* `final_append`, `trail_append`: a run may be split anywhere.
* `getLastD_trail`: a run that succeeds ends at the last state of its trail.
* `final_append_of_error`, `trail_append_of_error`: nothing after a failure matters.
* `invariant`: what every step keeps holds all along a run, and where it fails.
-/

namespace TextCursor.Run

variable {α σ ε : Type} (step : α → σ → Except ε σ)

/-- The state after the last command, or the first failure. -/
def final : List α → σ → Except ε σ
  | [], s => .ok s
  | a :: as, s =>
    match step a s with
    | .ok s' => final as s'
    | .error e => .error e

/-- The states that the commands give, up to the one that fails. -/
def trail : List α → σ → List σ
  | [], _ => []
  | a :: as, s =>
    match step a s with
    | .ok s' => s' :: trail as s'
    | .error _ => []

variable {step} {a : α} {as bs : List α} {s s' : σ} {e : ε}

@[simp] theorem final_nil : final step [] s = .ok s := rfl

@[simp] theorem trail_nil : trail step [] s = [] := rfl

theorem final_cons_of_ok (h : step a s = .ok s') : final step (a :: as) s = final step as s' := by
  rw [final, h]

theorem final_cons_of_error (h : step a s = .error e) : final step (a :: as) s = .error e := by
  rw [final, h]

theorem trail_cons_of_ok (h : step a s = .ok s') :
    trail step (a :: as) s = s' :: trail step as s' := by
  rw [trail, h]

theorem trail_cons_of_error (h : step a s = .error e) : trail step (a :: as) s = [] := by
  rw [trail, h]

theorem final_append : final step (as ++ bs) s = final step as s >>= final step bs := by
  induction as generalizing s with
  | nil => rfl
  | cons a as ih =>
    rw [List.cons_append]
    cases h : step a s with
    | ok s' => rw [final_cons_of_ok h, final_cons_of_ok h, ih]
    | error e => rw [final_cons_of_error h, final_cons_of_error h]; rfl

theorem final_append_of_error (h : final step as s = .error e) :
    final step (as ++ bs) s = .error e := by
  rw [final_append, h]
  rfl

theorem trail_append (h : final step as s = .ok s') :
    trail step (as ++ bs) s = trail step as s ++ trail step bs s' := by
  induction as generalizing s with
  | nil => cases h; rfl
  | cons a as ih =>
    rw [List.cons_append]
    cases ha : step a s with
    | ok s₁ =>
      rw [final_cons_of_ok ha] at h
      rw [trail_cons_of_ok ha, trail_cons_of_ok ha, ih h, List.cons_append]
    | error e => rw [final_cons_of_error ha] at h; cases h

theorem trail_append_of_error (h : final step as s = .error e) :
    trail step (as ++ bs) s = trail step as s := by
  induction as generalizing s with
  | nil => cases h
  | cons a as ih =>
    rw [List.cons_append]
    cases ha : step a s with
    | ok s₁ =>
      rw [final_cons_of_ok ha] at h
      rw [trail_cons_of_ok ha, trail_cons_of_ok ha, ih h]
    | error e => rw [trail_cons_of_error ha, trail_cons_of_error ha]

theorem getLastD_trail (h : final step as s = .ok s') : (trail step as s).getLastD s = s' := by
  induction as generalizing s with
  | nil => cases h; rfl
  | cons a as ih =>
    cases ha : step a s with
    | ok s₁ =>
      rw [final_cons_of_ok ha] at h
      rw [trail_cons_of_ok ha, List.getLastD_cons, ih h]
    | error e => rw [final_cons_of_error ha] at h; cases h

/-- **What every step keeps** holds of all states of a run, and of the state at which it fails. -/
theorem invariant {P : σ → Prop} (hstep : ∀ a ∈ as, ∀ s s', P s → step a s = .ok s' → P s')
    (h : P s) :
    (∀ s' ∈ trail step as s, P s') ∧
    (∀ s', final step as s = .ok s' → P s') ∧
    ∀ e, final step as s = .error e → ∃ a ∈ as, ∃ s', P s' ∧ step a s' = .error e := by
  induction as generalizing s with
  | nil =>
    refine ⟨nofun, ?_, nofun⟩
    rintro _ ⟨⟩
    exact h
  | cons a as ih =>
    cases ha : step a s with
    | ok s₁ =>
      have h₁ : P s₁ := hstep a List.mem_cons_self s s₁ h ha
      obtain ⟨htrail, hok, herror⟩ := ih (fun b hb => hstep b (List.mem_cons_of_mem a hb)) h₁
      rw [trail_cons_of_ok ha, final_cons_of_ok ha]
      refine ⟨List.forall_mem_cons.2 ⟨h₁, htrail⟩, hok, ?_⟩
      intro e he
      obtain ⟨b, hb, hs'⟩ := herror e he
      exact ⟨b, List.mem_cons_of_mem a hb, hs'⟩
    | error e₁ =>
      rw [trail_cons_of_error ha, final_cons_of_error ha]
      refine ⟨nofun, nofun, ?_⟩
      rintro _ ⟨⟩
      exact ⟨a, List.mem_cons_self, s, h, ha⟩

end TextCursor.Run
