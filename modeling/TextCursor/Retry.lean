import TextCursor.Tag

/-!
# Retrying

A retry run tries each tag in turn and goes on after a failure from the snippet at which the tag
failed, so that a failed tag is as if it had not been tried.
-/

namespace TextCursor.Retry

/-- The outcome of every tag, each tried from where the outcome before it resumes. -/
def outcomes : List Tag → Snippet → List Outcome
  | [], _ => []
  | t :: ts, s => t.run s :: outcomes ts (Outcome.resume (t.run s))

/-- The snippet at which a retry run ends. -/
def finish (ts : List Tag) (s : Snippet) : Snippet :=
  ts.foldl (fun s t => Outcome.resume (t.run s)) s

@[simp] theorem finish_cons (t : Tag) (ts : List Tag) (s : Snippet) :
    finish (t :: ts) s = finish ts (Outcome.resume (t.run s)) := rfl

@[simp] theorem length_outcomes (ts : List Tag) (s : Snippet) :
    (outcomes ts s).length = ts.length := by
  induction ts generalizing s with
  | nil => rfl
  | cons t ts ih => simp [outcomes, ih]

end TextCursor.Retry
