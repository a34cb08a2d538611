import Mathlib.Data.List.Sort
import Mathlib.Data.Set.Function
import TextCursor.Search
import TextCursor.Proofs.Window

/-!
# The occurrences that probing finds

A literal is tried at every byte. It is found from where it occurs, and also from bytes inside the
character that ends there, so an occurrence is found once for each of the bytes in the smaller of
two characters: the one that ends at the occurrence and the literal's last one.

* `toOption_run_probe`: what the tag does at one probe, by the criterion for a tag (`Found`).
* `mem_starts`, `mem_starts_iff_ceil`: the probes that find one occurrence.
* `filter_found`: the probes that find anything are those of the occurrences, one after another.
* `find_occurrences`: the hits of a whole search.
-/

namespace TextCursor

open Text

namespace Search

variable {e source : String} {p i : Nat}

/-! ## Occurrences -/

theorem occurs_iff :
    Occurs e source p ↔ IsBoundary source p ∧ (after source p).startsWith e = true := by
  constructor
  · rintro ⟨x, y, rfl, rfl⟩
    rw [String.append_assoc]
    have hb : IsBoundary (x ++ (e ++ y)) x.utf8ByteSize := ⟨x, e ++ y, rfl, rfl⟩
    refine ⟨hb, startsWith_iff_exists.2 ⟨y, ?_⟩⟩
    exact eq_after (ceil_eq_self hb).symm
  · rintro ⟨hb, h⟩
    obtain ⟨y, hy⟩ := startsWith_iff_exists.1 h
    refine ⟨before source p, y, ?_, (utf8ByteSize_before source p).trans (ceil_eq_self hb)⟩
    rw [String.append_assoc, ← hy, before_append_after]

theorem Occurs.add_size_le (h : Occurs e source p) :
    p + e.utf8ByteSize ≤ source.utf8ByteSize := by
  obtain ⟨x, y, rfl, rfl⟩ := h
  simp only [String.utf8ByteSize_append]
  omega

/-- Where `e` occurs, in order. -/
def positions (e source : String) : List Nat :=
  (List.range (source.utf8ByteSize + 1)).filter fun p =>
    IsBoundary source p ∧ (after source p).startsWith e = true

theorem mem_positions : p ∈ positions e source ↔ Occurs e source p := by
  rw [positions, List.mem_filter, List.mem_range, decide_eq_true_eq, ← occurs_iff,
    and_iff_right_of_imp]
  intro h
  have := h.add_size_le
  omega

theorem pairwise_positions (e source : String) : (positions e source).Pairwise (· < ·) :=
  List.pairwise_lt_range.filter _

/-! ## One probe -/

/-- The criterion for a tag that is tried at byte `i`. -/
def Found (e source : String) (i : Nat) : Prop :=
  e = "" ∨ (after source i).startsWith e = true ∧ ceil source i - i < lastWidth e

instance (e source : String) (i : Nat) : Decidable (Found e source i) :=
  inferInstanceAs (Decidable (_ ∨ _))

/-- A hit with its offset as a number. -/
def Hit.entry (h : Hit) : Nat × Nat := (h.offset.toNat, h.left)

theorem stop_probe (source : String) (i : Nat) :
    ((Snippet.input source).slice (.clamp i)).stop = .clamp i := by
  apply UInt64.toNat_inj.1
  rw [Snippet.toNat_stop_slice, Snippet.stop_input, UInt64.toNat_zero, Position.toNat_clamp]
  omega

theorem toOption_run_probe (e : String) (hs : Addressable source) (hi : i ≤ Position.largest) :
    ((Tag.run ⟨e⟩ ((Snippet.input source).slice (.clamp i))).toOption.map Hit.ofSnippet).map
        Hit.entry =
      if Found e source i then
        some (i, source.utf8ByteSize - ceil source i - e.utf8ByteSize)
      else none := by
  generalize hhead : (Snippet.input source).slice (.clamp i) = head
  have hsource : head.source = source := hhead ▸ rfl
  have hstop : head.stop.toNat = i := by
    rw [← hhead, stop_probe, Position.toNat_clamp, Nat.min_eq_left hi]
  have hrest : head.rest = after source i := by rw [Snippet.rest, hsource, hstop]
  have hfound : (∃ s', Tag.run ⟨e⟩ head = .ok s') ↔ Found e source i := by
    rw [Tag.exists_run_eq_ok_iff (hsource ▸ hs), hrest, Snippet.skew, hsource, hstop]
    rfl
  by_cases h : ∃ s', Tag.run ⟨e⟩ head = .ok s'
  · rw [if_pos (hfound.1 h)]
    obtain ⟨s', hs'⟩ := h
    have htaken := Tag.taken_of_run_eq_ok (hsource ▸ hs) hs'
    have hsize := congrArg String.utf8ByteSize htaken.rest
    rw [hrest, utf8ByteSize_after, String.utf8ByteSize_append] at hsize
    rw [hs']
    show some (s'.offset.toNat, s'.rest.utf8ByteSize) = _
    rw [htaken.offset, hstop, hsize, Nat.add_sub_cancel_left]
  · rw [if_neg (mt hfound.2 h), Tag.run_eq_error_of_not_exists h]
    rfl

theorem map_entry_find (e : String) (hs : source.utf8ByteSize + 2 ≤ Position.largest) :
    (find ⟨e⟩ source).map Hit.entry =
      ((List.range (source.utf8ByteSize + 3)).filter (Found e source ·)).map fun i =>
        (i, source.utf8ByteSize - ceil source i - e.utf8ByteSize) := by
  have haddr : Addressable source := Nat.le_of_add_right_le hs
  rw [find, probes, List.filterMap_map, List.map_filterMap, ← List.filterMap_eq_map,
    List.filterMap_filter]
  refine List.filterMap_congr fun i hi => ?_
  have hlt := List.mem_range.1 hi
  have hprobe := toOption_run_probe (i := i) e haddr (by omega)
  simpa using hprobe

/-! ## The probes of an occurrence -/

/-- The probes that find the occurrence of `e` at byte `p`: as many as the smaller of two characters
has bytes, the last one being `p`. -/
def starts (e source : String) (p : Nat) : List Nat :=
  List.range' (p + 1 - min (lastWidth e) (lastWidth (before source p)))
    (min (lastWidth e) (lastWidth (before source p)))

theorem length_starts (e source : String) (p : Nat) :
    (starts e source p).length = min (lastWidth e) (lastWidth (before source p)) :=
  List.length_range'

theorem mem_starts (hp : IsBoundary source p) :
    i ∈ starts e source p ↔ i ≤ p ∧ p < i + min (lastWidth e) (lastWidth (before source p)) := by
  have hle := lastWidth_le (before source p)
  rw [utf8ByteSize_before, ceil_eq_self hp] at hle
  rw [starts, List.mem_range'_1]
  omega

theorem mem_starts_iff_ceil (hp : IsBoundary source p) :
    i ∈ starts e source p ↔ i ≤ p ∧ ceil source i = p ∧ p - i < lastWidth e := by
  rw [mem_starts hp]
  constructor
  · rintro ⟨hi, h⟩
    exact ⟨hi, (ceil_eq_iff hp hi).2 (by omega), by omega⟩
  · rintro ⟨hi, hceil, hlast⟩
    have := (ceil_eq_iff hp hi).1 hceil
    exact ⟨hi, by omega⟩

/-- A literal that ends in a character of one byte is found at its own position alone. -/
theorem starts_eq_singleton (he : lastWidth e = 1) (source : String) (p : Nat) :
    starts e source p = [p] := by
  have hpos := lastWidth_pos (before source p)
  rw [starts, he, Nat.min_eq_left hpos]
  rfl

theorem pairwise_flatMap_starts (e source : String) :
    ((positions e source).flatMap (starts e source)).Pairwise (· < ·) := by
  rw [List.pairwise_flatMap]
  refine ⟨fun p _ => List.pairwise_lt_range' 1, ?_⟩
  refine (pairwise_positions e source).imp_of_mem ?_
  intro p q hp hq hpq i hi j hj
  have hbp := (occurs_iff.1 (mem_positions.1 hp)).1
  have hbq := (occurs_iff.1 (mem_positions.1 hq)).1
  obtain ⟨hip, -⟩ := (mem_starts hbp).1 hi
  obtain ⟨-, hceil, -⟩ := (mem_starts_iff_ceil hbq).1 hj
  -- `j` is rounded past `p`, so it is past `p`
  have hpj : ¬ceil source j ≤ p := by omega
  rw [ceil_le_iff hbp] at hpj
  omega

theorem filter_found (he : e ≠ "") (source : String) :
    (List.range (source.utf8ByteSize + 3)).filter (Found e source ·) =
      (positions e source).flatMap (starts e source) := by
  refine (List.pairwise_lt_range.filter _).eq_of_mem_iff (pairwise_flatMap_starts e source) ?_
  intro i
  rw [List.mem_filter, List.mem_range, decide_eq_true_eq, List.mem_flatMap, Found,
    or_iff_right he]
  constructor
  · rintro ⟨-, hstarts, hlast⟩
    have hceil : ceil source (ceil source i) = ceil source i :=
      ceil_eq_self (isBoundary_ceil source i)
    have hoccurs : Occurs e source (ceil source i) :=
      occurs_iff.2 ⟨isBoundary_ceil source i, after_congr hceil ▸ hstarts⟩
    refine ⟨ceil source i, mem_positions.2 hoccurs, ?_⟩
    -- the literal is not empty, so the probe is not past the end
    have hpos : e.utf8ByteSize ≠ 0 := mt String.utf8ByteSize_eq_zero_iff.1 he
    have hle := le_ceil source i
    have := hoccurs.add_size_le
    exact (mem_starts_iff_ceil (isBoundary_ceil source i)).2 ⟨by omega, rfl, hlast⟩
  · rintro ⟨p, hp, hi⟩
    obtain ⟨hb, hstarts⟩ := occurs_iff.1 (mem_positions.1 hp)
    obtain ⟨hip, hceil, hlast⟩ := (mem_starts_iff_ceil hb).1 hi
    have hle := hb.le
    refine ⟨by omega, ?_, hceil.symm ▸ hlast⟩
    rw [after_congr (hceil.trans (ceil_eq_self hb).symm)]
    exact hstarts

/-! ## A whole search -/

theorem map_entry_find_of_ne_empty (he : e ≠ "")
    (hs : source.utf8ByteSize + 2 ≤ Position.largest) :
    (find ⟨e⟩ source).map Hit.entry = (positions e source).flatMap fun p =>
      (starts e source p).map fun i => (i, source.utf8ByteSize - p - e.utf8ByteSize) := by
  rw [map_entry_find e hs, filter_found he, List.map_flatMap]
  refine List.flatMap_congr fun p hp => List.map_congr_left fun i hi => ?_
  have hb := (occurs_iff.1 (mem_positions.1 hp)).1
  obtain ⟨-, hceil, -⟩ := (mem_starts_iff_ceil hb).1 hi
  rw [hceil]

/-- The numbers of bytes left after the hits are those left after the occurrences. -/
theorem exists_left_iff (he : e ≠ "") (hs : source.utf8ByteSize + 2 ≤ Position.largest) {n : Nat} :
    (∃ h ∈ find ⟨e⟩ source, h.left = n) ↔
      ∃ p, Occurs e source p ∧ source.utf8ByteSize - p - e.utf8ByteSize = n := by
  have hentries : (∃ h ∈ find ⟨e⟩ source, h.left = n) ↔
      ∃ x ∈ (find ⟨e⟩ source).map Hit.entry, x.2 = n := by
    simp [Hit.entry]
  rw [hentries, map_entry_find_of_ne_empty he hs]
  simp only [List.mem_flatMap, List.mem_map, mem_positions]
  constructor
  · rintro ⟨_, ⟨p, hp, i, -, rfl⟩, hn⟩
    exact ⟨p, hp, hn⟩
  · rintro ⟨p, hp, hn⟩
    -- the last probe of an occurrence is its own position
    have hb := (occurs_iff.1 hp).1
    have h₁ := lastWidth_pos e
    have h₂ := lastWidth_pos (before source p)
    exact ⟨_, ⟨p, hp, p, (mem_starts hb).2 ⟨Nat.le_refl p, by omega⟩, rfl⟩, hn⟩

theorem bijOn_left (he : e ≠ "") (hs : source.utf8ByteSize + 2 ≤ Position.largest) :
    Set.BijOn (fun p => source.utf8ByteSize - p - e.utf8ByteSize) {p | Occurs e source p}
      {n | ∃ h ∈ find ⟨e⟩ source, h.left = n} := by
  refine ⟨fun p hp => (exists_left_iff he hs).2 ⟨p, hp, rfl⟩, fun p hp q hq hpq => ?_,
    fun n hn => (exists_left_iff he hs).1 hn⟩
  have h₁ := Occurs.add_size_le hp
  have h₂ := Occurs.add_size_le hq
  simp only at hpq
  omega

/-- **What a search finds.** Every occurrence of a literal is found, in order, once for each byte of
the smaller of two characters, the one that ends there and the literal's last one; nothing else is
found. What is left after a hit tells the occurrences apart. The empty literal is found at every
byte. The two probes past the end are positions, as they are for any text in memory. -/
theorem find_occurrences (source e : String) (hs : source.utf8ByteSize + 2 ≤ Position.largest) :
    (e ≠ "" →
      (∃ ps : List Nat, ps.Pairwise (· < ·) ∧ (∀ p, p ∈ ps ↔ Occurs e source p) ∧
        (∀ p ∈ ps,
          (starts e source p).length = min (lastWidth e) (lastWidth (before source p)) ∧
          ∀ i, i ∈ starts e source p ↔
            i ≤ p ∧ p < i + min (lastWidth e) (lastWidth (before source p))) ∧
        ((find ⟨e⟩ source).map Hit.entry = ps.flatMap fun p =>
          (starts e source p).map fun i => (i, source.utf8ByteSize - p - e.utf8ByteSize)) ∧
        (∀ c, e.toList.getLast? = some c → c.toNat < 128 →
          (find ⟨e⟩ source).map Hit.entry =
            ps.map fun p => (p, source.utf8ByteSize - p - e.utf8ByteSize))) ∧
      Set.BijOn (fun p => source.utf8ByteSize - p - e.utf8ByteSize) {p | Occurs e source p}
        {n | ∃ h ∈ find ⟨e⟩ source, h.left = n}) ∧
    (e = "" → (find ⟨e⟩ source).map Hit.entry =
      (List.range (source.utf8ByteSize + 3)).map fun i =>
        (i, source.utf8ByteSize - ceil source i)) := by
  refine ⟨fun he => ⟨⟨positions e source, pairwise_positions e source, fun p => mem_positions,
    fun p hp => ?_, map_entry_find_of_ne_empty he hs, fun c hc hascii => ?_⟩,
    bijOn_left he hs⟩, ?_⟩
  · have hb := (occurs_iff.1 (mem_positions.1 hp)).1
    exact ⟨length_starts e source p, fun i => mem_starts hb⟩
  · have hsingle := starts_eq_singleton (lastWidth_eq_one hc hascii) source
    rw [map_entry_find_of_ne_empty he hs, List.map_eq_flatMap]
    refine List.flatMap_congr fun p _ => ?_
    rw [hsingle p]
    rfl
  · rintro rfl
    rw [map_entry_find "" hs, List.filter_eq_self.2 fun i _ => decide_eq_true (.inl rfl)]
    rfl

/-- The second of two overlapping occurrences is found from inside the character before it too. -/
theorem find_occurrences_overlapping :
    "ééé".utf8ByteSize + 2 ≤ Position.largest ∧
      (∃ h ∈ find ⟨"éé"⟩ "ééé", h.left = 0) ∧
      (find ⟨"éé"⟩ "ééé").map Hit.entry = [(0, 2), (1, 0), (2, 0)] := by
  have hs : "ééé".utf8ByteSize + 2 ≤ Position.largest := by decide
  obtain ⟨hne, -⟩ := find_occurrences "ééé" "éé" hs
  obtain ⟨-, hbij⟩ := hne (by decide)
  refine ⟨hs, hbij.mapsTo (x := 2) ⟨"é", "", by decide, by decide⟩, by decide +kernel⟩

end Search

end TextCursor
