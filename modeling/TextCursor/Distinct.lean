/-!
# Different values in a list
-/

namespace TextCursor

variable {α : Type} [BEq α]

/-- How many different values a list holds. -/
def distinct (xs : List α) : Nat := xs.eraseDups.length

/-- For each value of a list, where the first value equal to it stands. -/
def firstIndices (xs : List α) : List Nat := xs.map xs.idxOf

end TextCursor
