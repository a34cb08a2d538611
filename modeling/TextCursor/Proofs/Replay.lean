import Mathlib.Data.List.Forall2
import TextCursor.Chain
import TextCursor.Proofs.Tiling
import TextCursor.Proofs.Window

/-!
# Slices replayed as tags

The texts that slicing reads are literals that a chain of tags matches again. Slicing stops where it
is told to, in a character or past the end; the tags move by the texts, so they stop at the boundary
that each of those stops is rounded to.

* `StopsRounded p q`: the invariant. `p` stops at the boundary that the stop of `q` is rounded to.
* `StopsRounded.exists_run_fragment`: hence the next slice of `q` is matched at `p`, and what is
  matched is the slice with its ends rounded (`Rounded`).
* `StopsRounded.exists_run_fragments`: the same of all slices, one after another.
* `exists_run_rest`: the rest is matched too, and nothing is left.
* `parse_replay`: slices replayed from the start of a text.
-/

namespace TextCursor

open Text

/-- The chain of the texts that slicing reads. -/
def Chain.replay (s : Snippet) (cuts : List Position) : Chain :=
  ofLiterals ((s.pieces cuts).map Snippet.fragment)

/-- `p` stops at the boundary that the stop of `q` is rounded to, in the same addressable text. -/
structure StopsRounded (p q : Snippet) : Prop where
  source : p.source = q.source
  stop : p.stop.toNat = ceil q.source q.stop.toNat
  addressable : Addressable q.source

/-- `p` is `q` with its ends rounded, and reads the same. -/
structure Rounded (p q : Snippet) : Prop extends StopsRounded p q where
  offset : p.offset.toNat = ceil q.source q.offset.toNat
  fragment : p.fragment = q.fragment
  rest : p.rest = q.rest
  atEnd : p.atEnd = q.atEnd

theorem stopsRounded_input {source : String} (hs : Addressable source) :
    StopsRounded (.input source) (.input source) :=
  ⟨rfl, (ceil_zero source).symm, hs⟩

/-- At a boundary the whole rest can be matched, and then nothing is left. -/
theorem exists_run_rest {s : Snippet} (hs : Addressable s.source)
    (hb : IsBoundary s.source s.stop.toNat) :
    ∃ s', Tag.run ⟨s.rest⟩ s = .ok s' ∧ s'.stop.toNat = s.source.utf8ByteSize ∧
      s'.atEnd = true := by
  obtain ⟨s', h, hstop, -⟩ := Tag.exists_run_eq_ok_of_startsWith (t := ⟨s.rest⟩) hs hb
    (startsWith_iff_exists.2 ⟨"", by simp⟩)
  have hsize := s.utf8ByteSize_rest
  have hle := hb.le
  rw [ceil_eq_self hb] at hsize
  refine ⟨s', h, ?_, ?_⟩
  · rw [hstop, hsize, Nat.add_sub_cancel' hle]
  · have hrest : s.rest ++ "" = s.rest ++ s'.rest :=
      (String.append_empty ..).trans (Tag.rest_of_run_eq_ok h)
    exact Snippet.atEnd_iff.2 ((String.append_right_inj s.rest).1 hrest).symm

namespace StopsRounded

variable {p q : Snippet}

theorem ceil_stop (h : StopsRounded p q) :
    ceil q.source p.stop.toNat = ceil q.source q.stop.toNat := by
  rw [h.stop, ceil_eq_self (isBoundary_ceil ..)]

theorem boundary (h : StopsRounded p q) : IsBoundary p.source p.stop.toNat := by
  rw [h.source, h.stop]
  exact isBoundary_ceil ..

theorem rest (h : StopsRounded p q) : p.rest = q.rest := by
  rw [Snippet.rest, h.source]
  exact after_congr h.ceil_stop

/-- **One slice**: its text is matched, and what is matched is the slice with its ends rounded. -/
theorem exists_run_fragment (h : StopsRounded p q) (n : Position) :
    ∃ p', Tag.run ⟨(q.slice n).fragment⟩ p = .ok p' ∧ Rounded p' (q.slice n) := by
  have hp : Addressable p.source := by
    rw [h.source]
    exact h.addressable
  have hstarts : p.rest.startsWith (q.slice n).fragment = true := by
    rw [h.rest, ← q.slice_fragment_append_rest n]
    exact startsWith_iff_exists.2 ⟨_, rfl⟩
  obtain ⟨p', hrun, hstop, -⟩ := Tag.exists_run_eq_ok_of_startsWith
    (t := ⟨(q.slice n).fragment⟩) hp h.boundary hstarts
  have htaken := Tag.taken_of_run_eq_ok hp hrun
  have hround : StopsRounded p' (q.slice n) := by
    refine ⟨htaken.source.trans h.source, ?_, h.addressable⟩
    have hmono : ceil q.source q.stop.toNat ≤ ceil q.source (q.slice n).stop.toNat :=
      ceil_mono q.source (q.slice n).offset_le_stop
    rw [hstop, h.stop, Snippet.utf8ByteSize_fragment, Snippet.offset_slice, Snippet.source_slice,
      Nat.add_sub_cancel' hmono]
  have hoffset : p'.offset.toNat = ceil q.source q.stop.toNat := by
    rw [htaken.offset, h.stop]
  exact ⟨p', hrun, { hround with
    offset := hoffset
    fragment := htaken.fragment
    rest := hround.rest
    atEnd := Snippet.atEnd_congr hround.rest }⟩

/-- **All slices**, one after another. -/
theorem exists_run_fragments (h : StopsRounded p q) (cuts : List Position) :
    ∃ p', (Chain.replay q cuts).run p = .ok p' ∧ StopsRounded p' (q.sliceAll cuts) ∧
      List.Forall₂ Rounded ((Chain.replay q cuts).trail p) (q.pieces cuts) := by
  induction cuts generalizing p q with
  | nil => exact ⟨p, rfl, h, .nil⟩
  | cons n cuts ih =>
    obtain ⟨p₁, h₁, hround⟩ := h.exists_run_fragment n
    obtain ⟨p', hrun, hlast, htrail⟩ := ih hround.toStopsRounded
    have hcons : (Chain.replay q (n :: cuts)).trail p =
        p₁ :: (Chain.replay (q.slice n) cuts).trail p₁ := Chain.trail_ofLiterals_cons_of_ok h₁
    refine ⟨p', (Chain.run_ofLiterals_cons_of_ok h₁).trans hrun, hlast, ?_⟩
    rw [Snippet.pieces, hcons]
    exact .cons hround htrail

end StopsRounded

/-- **Slices replayed as tags.** The texts that slicing reads from the start of a text are matched
one after another, and each match is a slice with its ends rounded, where a slice starts at the stop
of the one before it. The chain leaves what slicing leaves; with that as a last literal it ends at
the end of the text. -/
theorem parse_replay (source : String) (cuts : List Position) (hs : Addressable source) :
    (∃ s, Parser.parse (Chain.replay (.input source) cuts).run source = .ok s ∧
      ((Chain.replay (.input source) cuts).trail (.input source)).getLastD (.input source) = s ∧
      s.rest = ((Snippet.input source).sliceAll cuts).rest ∧
      s.atEnd = ((Snippet.input source).sliceAll cuts).atEnd) ∧
    List.Forall₂ Rounded ((Chain.replay (.input source) cuts).trail (.input source))
      ((Snippet.input source).pieces cuts) ∧
    (∀ (j : Nat) (q : Snippet), ((Snippet.input source).pieces cuts)[j]? = some q →
      ∃ q₀, (Snippet.input source :: (Snippet.input source).pieces cuts)[j]? = some q₀ ∧
        q.offset = q₀.stop) ∧
    ∃ s, Parser.parse (Chain.run (Chain.replay (.input source) cuts ++
        [.tag ⟨((Snippet.input source).sliceAll cuts).rest⟩])) source = .ok s ∧
      s.stop.toNat = source.utf8ByteSize ∧ s.atEnd = true := by
  obtain ⟨s, hrun, hround, htrail⟩ := (stopsRounded_input hs).exists_run_fragments cuts
  have hsource : s.source = source := hround.source.trans (Snippet.source_sliceAll ..)
  refine ⟨⟨s, hrun, Run.getLastD_trail hrun, hround.rest, Snippet.atEnd_congr hround.rest⟩, htrail,
    fun j q h => Snippet.offset_of_getElem?_pieces h, ?_⟩
  obtain ⟨s', h, hstop, hend⟩ := exists_run_rest (s := s) (hsource ▸ hs) hround.boundary
  refine ⟨s', ?_, hsource ▸ hstop, hend⟩
  have hlast : (Chain.ofLiterals [s.rest]).run s = .ok s' := Chain.run_ofLiterals_cons_of_ok h
  rw [Parser.parse, Chain.run_append, hrun, ← hround.rest]
  exact hlast

/-- Two cuts inside characters and one past every position: the texts are matched where they
start. -/
theorem parse_replay_inside_characters :
    Addressable "aé€" ∧
      ((Snippet.input "aé€").pieces [2, 2, 0xffffffffffffffff]).map Snippet.fragment =
        ["aé", "€", ""] ∧
      ∃ s, Parser.parse (Chain.ofLiterals ["aé", "€", ""]).run "aé€" = .ok s ∧
        s.atEnd = ((Snippet.input "aé€").sliceAll [2, 2, 0xffffffffffffffff]).atEnd := by
  have hs : Addressable "aé€" := by decide
  have hfragments : ((Snippet.input "aé€").pieces [2, 2, 0xffffffffffffffff]).map
      Snippet.fragment = ["aé", "€", ""] := by decide +kernel
  obtain ⟨⟨s, hrun, -, -, hend⟩, -⟩ := parse_replay "aé€" [2, 2, 0xffffffffffffffff] hs
  rw [Chain.replay, hfragments] at hrun
  exact ⟨hs, hfragments, s, hrun, hend⟩

end TextCursor
