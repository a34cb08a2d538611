import Mathlib.Algebra.GroupWithZero.Nat
import TextCursor.Snippet

/-!
# Slices tile the text

Slicing again and again cuts the text at the stops reached on the way, and what the snippets between
two stops read is what one snippet from the first stop to the last one reads.

* `toNat_stop_sliceAll`: the clamped sum of the cuts is what clamping after every cut gives.
* `piecesText_eq_between`: the pieces read the text from the first stop to the last, since one piece
  ends at the boundary where the next one starts.
* `piecesText_tiles`: repeated slices read what one slice of the clamped sum reads.
-/

namespace TextCursor.Snippet

open Text

/-- How many bytes a list of cuts asks for. -/
def total (cuts : List Position) : Nat := (cuts.map UInt64.toNat).sum

/-- The text of the pieces that the cuts make, in order. -/
def piecesText (s : Snippet) (cuts : List Position) : String :=
  String.join ((s.pieces cuts).map fragment)

variable {s s' : Snippet}

/-! ## Stops -/

theorem toNat_stop_sliceAll (s : Snippet) (cuts : List Position) :
    (s.sliceAll cuts).stop.toNat = min (s.stop.toNat + total cuts) Position.largest := by
  induction cuts generalizing s with
  | nil =>
    have := Position.toNat_le_largest s.stop
    rw [sliceAll_nil, total, List.map_nil, List.sum_nil]
    omega
  | cons n cuts ih =>
    -- a stop that was clamped stays at the largest position
    rw [sliceAll_cons, ih, toNat_stop_slice]
    simp only [total, List.map_cons, List.sum_cons]
    omega

theorem stop_le_stop_sliceAll (s : Snippet) (cuts : List Position) :
    s.stop.toNat ≤ (s.sliceAll cuts).stop.toNat := by
  have := Position.toNat_le_largest s.stop
  rw [toNat_stop_sliceAll]
  omega

theorem stop_sliceAll_eq_stop_slice (s : Snippet) (cuts : List Position) :
    (s.sliceAll cuts).stop = (s.slice (.clamp (total cuts))).stop := by
  apply UInt64.toNat_inj.1
  rw [toNat_stop_sliceAll, toNat_stop_slice, Position.toNat_clamp]
  omega

@[simp] theorem source_sliceAll (s : Snippet) (cuts : List Position) :
    (s.sliceAll cuts).source = s.source := by
  induction cuts generalizing s with
  | nil => rfl
  | cons n cuts ih => rw [sliceAll_cons, ih, source_slice]

/-! ## Texts -/

/-- What is left depends on the stop alone. -/
theorem rest_congr (hsource : s.source = s'.source) (hstop : s.stop = s'.stop) :
    s.rest = s'.rest := by
  rw [rest, rest, hsource, hstop]

theorem atEnd_congr (h : s.rest = s'.rest) : s.atEnd = s'.atEnd := by rw [atEnd, atEnd, h]

theorem piecesText_cons (s : Snippet) (n : Position) (cuts : List Position) :
    s.piecesText (n :: cuts) = (s.slice n).fragment ++ (s.slice n).piecesText cuts := by
  rw [piecesText, pieces, List.map_cons, String.join_cons, piecesText]

theorem piecesText_eq_between (s : Snippet) (cuts : List Position) :
    s.piecesText cuts = between s.source s.stop.toNat (s.sliceAll cuts).stop.toNat
      (s.stop_le_stop_sliceAll cuts) := by
  induction cuts generalizing s with
  | nil => exact (between_self s.source s.stop.toNat).symm
  | cons n cuts ih =>
    rw [piecesText_cons, ih]
    exact between_append_between s.source (s.slice n).offset_le_stop
      ((s.slice n).stop_le_stop_sliceAll cuts)

theorem piecesText_append_rest (s : Snippet) (cuts : List Position) :
    s.piecesText cuts ++ (s.sliceAll cuts).rest = s.rest := by
  rw [piecesText_eq_between, rest, source_sliceAll]
  exact between_append_after s.source (s.stop_le_stop_sliceAll cuts)

theorem piecesText_eq_fragment_slice (s : Snippet) (cuts : List Position) :
    s.piecesText cuts = (s.slice (.clamp (total cuts))).fragment := by
  rw [piecesText_eq_between]
  exact between_congr rfl (by rw [stop_sliceAll_eq_stop_slice])

/-- **Repeated slices read what one slice of the clamped sum reads**, and leave what it leaves after
the last piece: nothing is lost or read twice, wherever the cuts fall. -/
theorem piecesText_tiles (s : Snippet) (cuts : List Position) :
    s.piecesText cuts = (s.slice (.clamp (total cuts))).fragment ∧
    s.piecesText cuts ++ (s.sliceAll cuts).rest = s.rest ∧
    (s.sliceAll cuts).stop = (s.slice (.clamp (total cuts))).stop ∧
    (s.sliceAll cuts).rest = (s.slice (.clamp (total cuts))).rest ∧
    (s.sliceAll cuts).atEnd = (s.slice (.clamp (total cuts))).atEnd ∧
    (s.sliceAll cuts).stop.toNat = min (s.stop.toNat + total cuts) Position.largest ∧
    (s.pieces cuts).getLastD s = s.sliceAll cuts ∧
    (∀ source, (input source).piecesText cuts ++ ((input source).sliceAll cuts).rest = source) ∧
    (∀ cuts', Position.clamp (total cuts') = Position.clamp (total cuts) →
      s.piecesText cuts' = s.piecesText cuts ∧
        (s.sliceAll cuts').rest = (s.sliceAll cuts).rest) := by
  have hrest : ∀ cuts, (s.sliceAll cuts).rest = (s.slice (.clamp (total cuts))).rest :=
    fun cuts => rest_congr (source_sliceAll s cuts) (stop_sliceAll_eq_stop_slice s cuts)
  refine ⟨piecesText_eq_fragment_slice s cuts, piecesText_append_rest s cuts,
    stop_sliceAll_eq_stop_slice s cuts, hrest cuts, atEnd_congr (hrest cuts),
    toNat_stop_sliceAll s cuts, getLastD_pieces s cuts, fun source => ?_,
    fun cuts' h => ⟨?_, ?_⟩⟩
  · rw [piecesText_append_rest, rest_input]
  · rw [piecesText_eq_fragment_slice, piecesText_eq_fragment_slice, h]
  · rw [hrest cuts', hrest cuts, h]

/-- A cut inside a character, and one that runs past every position, read what the last one does. -/
theorem piecesText_tiles_clamped :
    Position.clamp (total [1, 0xffffffffffffffff]) = Position.clamp (total [0xffffffffffffffff]) ∧
      (input "€").piecesText [1, 0xffffffffffffffff] =
        (input "€").piecesText [0xffffffffffffffff] := by
  have h : Position.clamp (total [1, 0xffffffffffffffff]) =
      Position.clamp (total [0xffffffffffffffff]) := by decide
  obtain ⟨-, -, -, -, -, -, -, -, hcuts⟩ := piecesText_tiles (input "€") [0xffffffffffffffff]
  exact ⟨h, (hcuts _ h).1⟩

end TextCursor.Snippet
