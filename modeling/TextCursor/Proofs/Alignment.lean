import TextCursor.Session
import TextCursor.Proofs.Characters
import TextCursor.Proofs.Window

/-!
# Sessions of tags stay between characters

Neither slicing nor the stop of a snippet looks at the text, so a session may stand inside a
character or past the end. A session that makes its snippets with tags alone never does, from
whichever register a tag is tried, and whether it matches or not.

* `Aligned`: the invariant. A snippet lies between boundaries, and its stop is not clamped.
* `Aligned.input`, `Aligned.of_run_eq_ok`, `Aligned.resume_tag`, `Aligned.resume_chain`: it holds at
  the start of a text, and of what tags and chains of tags leave.
* `Session.perform_of_tags`, `Session.performAll_of_tags`: hence an action adds an aligned register,
  and so does each action of a whole session.
* `Aligned.slice?_fragment`, `Aligned.slice?_rest`, `Aligned.exists_run_eq_ok_iff`: an aligned snippet
  reads exactly its bytes, and a tag matches there exactly what the rest starts with.
* `Session.registers_aligned`: all of this of every register of a session.
-/

namespace TextCursor

open Text

/-! ## Aligned snippets -/

/-- A snippet between two boundaries of an addressable text, its stop not clamped. -/
structure Aligned (s : Snippet) : Prop where
  addressable : Addressable s.source
  offset : IsBoundary s.source s.offset.toNat
  stop : s.stop.toNat = s.offset.toNat + s.length.toNat
  boundary : IsBoundary s.source s.stop.toNat

namespace Aligned

variable {s s' : Snippet} {t : Tag} {steps : Chain}

theorem input {source : String} (hs : Addressable source) : Aligned (.input source) :=
  ⟨hs, isBoundary_zero source, rfl, isBoundary_zero source⟩

theorem of_run_eq_ok (h : Aligned s) (hrun : t.run s = .ok s') : Aligned s' := by
  have htaken := Tag.taken_of_run_eq_ok h.addressable hrun
  obtain ⟨hstop, hboundary⟩ := Tag.stop_of_run_eq_ok h.addressable h.boundary hrun
  refine ⟨?_, ?_, ?_, hboundary⟩
  · rw [htaken.source]
    exact h.addressable
  · rw [htaken.source, htaken.offset]
    exact h.boundary
  · rw [htaken.offset, htaken.length, hstop]

theorem resume_tag (h : Aligned s) (t : Tag) : Aligned (Outcome.resume (t.run s)) := by
  cases hrun : t.run s with
  | ok s' => exact h.of_run_eq_ok hrun
  | error f =>
    obtain ⟨-, rfl⟩ := Tag.run_eq_error_iff.1 hrun
    exact h

/-- **A chain of tags** ends on an aligned snippet, and one that fails leaves one. -/
theorem resume_chain (h : Aligned s) (hsteps : ∀ st ∈ steps, ∃ t, st = .tag t) :
    Aligned (Outcome.resume (steps.run s)) := by
  refine (Chain.invariant ?_ h).2
  intro st hst p p' hp hrun
  obtain ⟨t, rfl⟩ := hsteps st hst
  exact hp.of_run_eq_ok hrun

/-! ### What an aligned snippet reads -/

theorem slice?_fragment (h : Aligned s) :
    slice? s.source s.offset.toNat s.stop.toNat = some s.fragment := by
  have := slice?_between s.source s.offset_le_stop
  rwa [ceil_eq_self h.offset, ceil_eq_self h.boundary] at this

theorem utf8ByteSize_fragment (h : Aligned s) : s.fragment.utf8ByteSize = s.length.toNat := by
  rw [Snippet.utf8ByteSize_fragment, ceil_eq_self h.offset, ceil_eq_self h.boundary, h.stop,
    Nat.add_sub_cancel_left]

theorem slice?_rest (h : Aligned s) :
    slice? s.source s.stop.toNat s.source.utf8ByteSize = some s.rest := by
  have := slice?_after s.source s.stop.toNat
  rwa [ceil_eq_self h.boundary] at this

theorem exists_run_eq_ok_iff (h : Aligned s) (t : Tag) :
    (∃ s', t.run s = .ok s') ↔ s.rest.startsWith t.expected = true :=
  Tag.exists_run_eq_ok_iff_startsWith h.addressable (Snippet.skew_eq_zero_iff.2 (.inl h.boundary))

end Aligned

/-! ## Sessions -/

namespace Action

/-- That an action makes a snippet with tags alone, or starts on an addressable text. -/
def OfTags : Action → Prop
  | .input source => Addressable source
  | .tag _ _ => True
  | .chain _ steps => ∀ st ∈ steps, ∃ t, st = .tag t
  | _ => False

/-- That the register an action works on, if it names one, is among the first `n`. -/
def Within (n : Nat) : Action → Prop
  | .slice r _ | .tag r _ | .chain r _ | .view r => ∀ i ∈ r, i < n
  | .compare a b => a < n ∧ b < n
  | _ => True

end Action

namespace Session

variable {regs regs' : Session} {a : Action} {as : List Action} {answer : Answer}
  {answers : List Answer}

/-- **One action** adds an aligned register. -/
theorem perform_of_tags (ha : a.OfTags) (hregs : ∀ s ∈ regs, Aligned s)
    (h : regs.perform a = some (answer, regs')) : ∃ p, Aligned p ∧ regs' = regs ++ [p] := by
  cases a with
  | input source =>
    cases h
    exact ⟨.input source, Aligned.input ha, rfl⟩
  | tag r t =>
    obtain ⟨s, hs, hpush⟩ := Option.map_eq_some_iff.1 h
    cases hpush
    exact ⟨_, (hregs s (mem_of_lookup hs)).resume_tag t, rfl⟩
  | chain r steps =>
    obtain ⟨s, hs, hpush⟩ := Option.map_eq_some_iff.1 h
    cases hpush
    exact ⟨_, (hregs s (mem_of_lookup hs)).resume_chain ha, rfl⟩
  | slice | view | compare | count => exact absurd ha id

theorem exists_perform_of_tags (ha : a.OfTags) (hregs : regs ≠ [])
    (hr : a.Within regs.length) : ∃ answer p, regs.perform a = some (answer, regs ++ [p]) := by
  cases a with
  | input source => exact ⟨_, _, rfl⟩
  | tag r t =>
    obtain ⟨s, hs⟩ := exists_lookup hregs hr
    exact ⟨_, _, Option.map_eq_some_iff.2 ⟨s, hs, rfl⟩⟩
  | chain r steps =>
    obtain ⟨s, hs⟩ := exists_lookup hregs hr
    exact ⟨_, _, Option.map_eq_some_iff.2 ⟨s, hs, rfl⟩⟩
  | slice | view | compare | count => exact absurd ha id

/-- **A whole session** adds an aligned register for each action. -/
theorem performAll_of_tags (has : ∀ a ∈ as, a.OfTags) (hregs : ∀ s ∈ regs, Aligned s)
    (h : regs.performAll as = some (answers, regs')) :
    regs'.length = regs.length + as.length ∧ ∀ s ∈ regs', Aligned s := by
  induction as generalizing regs answers with
  | nil =>
    cases h
    exact ⟨rfl, hregs⟩
  | cons a as ih =>
    obtain ⟨ha, has⟩ := List.forall_mem_cons.1 has
    obtain ⟨answer, regs₁, answers', h₁, h', -⟩ := performAll_cons.1 h
    obtain ⟨p, hp, rfl⟩ := perform_of_tags ha hregs h₁
    have hregs₁ : ∀ s ∈ regs ++ [p], Aligned s := by
      intro s hs
      rcases List.mem_append.1 hs with hs | hs
      · exact hregs s hs
      · rwa [List.mem_singleton.1 hs]
    obtain ⟨hlength, haligned⟩ := ih has hregs₁ h'
    refine ⟨?_, haligned⟩
    simp only [hlength, List.length_append, List.length_cons, List.length_nil]
    omega

/-- A session in which every action names a register made before it can be performed. -/
theorem exists_performAll_of_tags (has : ∀ a ∈ as, a.OfTags) (hregs : regs ≠ [])
    (hr : ∀ (k : Nat) (a : Action), as[k]? = some a → a.Within (regs.length + k)) :
    ∃ answers regs', regs.performAll as = some (answers, regs') := by
  induction as generalizing regs with
  | nil => exact ⟨[], regs, rfl⟩
  | cons a as ih =>
    obtain ⟨ha, has⟩ := List.forall_mem_cons.1 has
    obtain ⟨answer, p, h⟩ := exists_perform_of_tags ha hregs (hr 0 a rfl)
    have hr' : ∀ (k : Nat) (b : Action), as[k]? = some b → b.Within ((regs ++ [p]).length + k) := by
      intro k b hb
      have := hr (k + 1) b hb
      rwa [List.length_append, List.length_singleton, Nat.add_assoc, Nat.add_comm 1 k]
    obtain ⟨answers, regs', h'⟩ := ih has (by simp) hr'
    exact ⟨_, regs', performAll_cons.2 ⟨answer, _, answers, h, h', rfl⟩⟩

/-- **In a session of tags every register lies between characters.** The session can be performed if
every action names a register made before it. Each register starts and stops at a boundary of its
text, its stop is the exact sum and within the text, it reads exactly the bytes up to there and from
there on, and a tag matches there exactly what the rest starts with. -/
theorem registers_aligned (source : String) (as : List Action) (hs : Addressable source)
    (has : ∀ a ∈ as, a.OfTags) :
    ((∀ (k : Nat) (a : Action), as[k]? = some a → a.Within (k + 1)) →
      ∃ answers regs, (start source).performAll as = some (answers, regs)) ∧
    ∀ answers regs, (start source).performAll as = some (answers, regs) →
      regs.length = as.length + 1 ∧
      ∀ s ∈ regs,
        IsBoundary s.source s.offset.toNat ∧ IsBoundary s.source s.stop.toNat ∧
        s.stop.toNat = s.offset.toNat + s.length.toNat ∧
        s.stop.toNat ≤ s.source.utf8ByteSize ∧
        slice? s.source s.offset.toNat s.stop.toNat = some s.fragment ∧
        s.fragment.utf8ByteSize = s.length.toNat ∧
        slice? s.source s.stop.toNat s.source.utf8ByteSize = some s.rest ∧
        ∀ t : Tag, (∃ s', t.run s = .ok s') ↔ s.rest.startsWith t.expected = true := by
  have hstart : ∀ s ∈ start source, Aligned s := by
    intro s hmem
    rw [List.mem_singleton.1 hmem]
    exact Aligned.input hs
  constructor
  · intro hr
    refine exists_performAll_of_tags has (by simp [start]) ?_
    intro k a ha
    rw [start, List.length_singleton, Nat.add_comm]
    exact hr k a ha
  · intro answers regs h
    obtain ⟨hlength, haligned⟩ := performAll_of_tags has hstart h
    refine ⟨?_, ?_⟩
    · rw [hlength, start, List.length_singleton, Nat.add_comm]
    · intro s hmem
      have ha := haligned s hmem
      exact ⟨ha.offset, ha.boundary, ha.stop, ha.boundary.le, ha.slice?_fragment,
        ha.utf8ByteSize_fragment, ha.slice?_rest, ha.exists_run_eq_ok_iff⟩

/-- A chain that fails in its second tag leaves a register too, and the next text starts from zero. -/
theorem registers_aligned_after_failure :
    Addressable "aé€" ∧
      (∀ a ∈ [.tag none ⟨"aé"⟩, .chain (some 0) [.tag ⟨"a"⟩, .tag ⟨"x"⟩], .input "€"],
        Action.OfTags a) ∧
      ∃ answers regs, (start "aé€").performAll
          [.tag none ⟨"aé"⟩, .chain (some 0) [.tag ⟨"a"⟩, .tag ⟨"x"⟩], .input "€"] =
            some (answers, regs) ∧
        regs.length = 4 ∧ ∀ s ∈ regs, s.fragment.utf8ByteSize = s.length.toNat := by
  have hs : Addressable "aé€" := by decide
  have has : ∀ a ∈ [.tag none ⟨"aé"⟩, .chain (some 0) [.tag ⟨"a"⟩, .tag ⟨"x"⟩], .input "€"],
      Action.OfTags a := by
    have hinput : Addressable "€" := by decide
    simp [Action.OfTags, hinput]
  obtain ⟨hperform, haligned⟩ := registers_aligned "aé€" _ hs has
  obtain ⟨answers, regs, h⟩ := hperform <| by
    intro k a ha
    match k with
    | 0 | 1 | 2 => cases ha; simp [Action.Within]
    | k + 3 => cases ha
  obtain ⟨hlength, hregs⟩ := haligned answers regs h
  refine ⟨hs, has, answers, regs, h, hlength, ?_⟩
  intro s hmem
  obtain ⟨-, -, -, -, -, hsize, -⟩ := hregs s hmem
  exact hsize

end Session

end TextCursor
