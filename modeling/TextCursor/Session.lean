import TextCursor.Chain
import TextCursor.Distinct

/-!
# Sessions

A session keeps every snippet it has made in numbered registers. An action works on any register,
not only the last one; actions that make a snippet append it, also when a parser fails: then the
failure's snippet is kept.

* `mem_of_lookup`, `exists_lookup`: a register that is named and exists holds one of the snippets.
* `performAll_cons`: the first action, then the others with the registers it leaves.
-/

namespace TextCursor

/-- One action of a session. A register is named by its number; `none` names the last one. -/
inductive Action where
  /-- Start on another text. -/
  | input (source : String)
  | slice (register : Option Nat) (n : Position)
  | tag (register : Option Nat) (t : Tag)
  | chain (register : Option Nat) (steps : Chain)
  | view (register : Option Nat)
  | compare (a b : Nat)
  | count

/-- What an action answers. -/
inductive Answer where
  | snippet (s : Snippet)
  | failure (f : Failure)
  | view (s : Snippet)
  /-- Whether two snippets are equal, the failures at them, and their texts. -/
  | comparison (snippets failures fragments : Bool)
  /-- How many registers there are, how many differ, and how many failures at them differ. -/
  | counts (registers snippets failures : Nat)

/-- The answer of an action that makes a snippet. -/
def Answer.ofOutcome : Outcome → Answer
  | .ok s => .snippet s
  | .error f => .failure f

/-- The registers, in the order in which they were made. -/
abbrev Session := List Snippet

namespace Session

/-- The session with one register, at the start of a text. -/
def start (source : String) : Session := [.input source]

/-- The snippet in a register, if there is such a register. -/
def lookup (regs : Session) : Option Nat → Option Snippet
  | some i => regs[i]?
  | none => regs.getLast?

/-- Keeps the snippet that an outcome leaves and answers with the outcome. -/
def push (regs : Session) (o : Outcome) : Answer × Session :=
  (.ofOutcome o, regs ++ [Outcome.resume o])

/-- The registers compared by source, offset and length, and by text. -/
def compare (a b : Snippet) : Answer :=
  .comparison (a == b) (Failure.mk a .tag == Failure.mk b .tag) (a.fragment == b.fragment)

/-- The numbers of registers and of different snippets and failures among them. -/
def counts (regs : Session) : Answer :=
  .counts regs.length (distinct regs) (distinct (regs.map fun s => Failure.mk s .tag))

/-- Performs an action; `none` if it names a register that does not exist. -/
def perform (regs : Session) : Action → Option (Answer × Session)
  | .input source => some (regs.push (.ok (.input source)))
  | .slice r n => (regs.lookup r).map fun s => regs.push (.ok (s.slice n))
  | .tag r t => (regs.lookup r).map fun s => regs.push (t.run s)
  | .chain r steps => (regs.lookup r).map fun s => regs.push (steps.run s)
  | .view r => (regs.lookup r).map fun s => (.view s, regs)
  | .compare a b => do return (compare (← regs[a]?) (← regs[b]?), regs)
  | .count => some (regs.counts, regs)

/-- Performs the actions in turn: their answers, and the registers at the end. -/
def performAll (regs : Session) : List Action → Option (List Answer × Session)
  | [] => some ([], regs)
  | a :: as => do
    let (answer, regs) ← regs.perform a
    let (answers, regs) ← regs.performAll as
    return (answer :: answers, regs)

variable {regs regs' : Session} {r : Option Nat} {s : Snippet} {a : Action} {as : List Action}
  {answers : List Answer}

theorem mem_of_lookup (h : regs.lookup r = some s) : s ∈ regs := by
  cases r with
  | none => exact List.mem_of_getLast? h
  | some i => exact List.mem_of_getElem? h

theorem exists_lookup (hregs : regs ≠ []) (hr : ∀ i ∈ r, i < regs.length) :
    ∃ s, regs.lookup r = some s := by
  cases r with
  | none => exact ⟨_, List.getLast?_eq_some_getLast hregs⟩
  | some i => exact ⟨_, List.getElem?_eq_getElem (hr i rfl)⟩

theorem performAll_cons :
    regs.performAll (a :: as) = some (answers, regs') ↔
      ∃ answer regs₁ answers', regs.perform a = some (answer, regs₁) ∧
        regs₁.performAll as = some (answers', regs') ∧ answers = answer :: answers' := by
  simp only [performAll, Option.bind_eq_bind, Option.bind_eq_some_iff, Option.pure_def,
    Option.some.injEq, Prod.mk.injEq, Prod.exists]
  constructor
  · rintro ⟨answer, regs₁, h, answers', _, h', rfl, rfl⟩
    exact ⟨answer, regs₁, answers', h, h', rfl⟩
  · rintro ⟨answer, regs₁, answers', h, h', rfl⟩
    exact ⟨answer, regs₁, h, answers', regs', h', rfl, rfl⟩

end Session

end TextCursor
