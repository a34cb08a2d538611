import TextCursor.Text.Addressable

/-!
# Rounding byte by byte

`Text.ceil` names the boundary that a position is rounded to. It is reached from the clamped position
by a loop over positions, which stops at a boundary and else moves on to the next byte. The test for
a boundary reads one byte.

* `atBoundary_iff`: the test is right, since in a text the bytes `10xxxxxx` are those that do not
  start a character.
* `toNat_of_climb?_eq_some`: a turn of the loop passes no boundary, so it stays in an `Addressable`
  text, where adding one is exact.
* `Climbs.of_le_boundary`, `exists_climbs`: hence a whole run passes no boundary, and it ends.
* `climbs_to_least_boundary`: the run ends at `ceil` after at most three turns, and `ceil` rounds up
  to the boundaries.
-/

namespace TextCursor.Text

/-! ## Reading a byte -/

/-- Whether `b` goes on with a character, as the bytes `10xxxxxx` do. -/
def isContinuation (b : UInt8) : Bool := b &&& 0xc0 == 0x80

/-- Whether byte `i` of `s` starts a character, or `i` is the end of `s`. -/
def atBoundary (s : String) (i : Nat) : Bool :=
  if h : i < s.utf8ByteSize then !isContinuation (s.getUTF8Byte ⟨i⟩ h) else i == s.utf8ByteSize

theorem isContinuation_of_isUTF8FirstByte {b : UInt8} (h : b.IsUTF8FirstByte) :
    isContinuation b = false := by
  rw [isContinuation, beq_eq_false_iff_ne]
  intro hb
  -- masking by both in either order would give one byte
  have hboth {m v : UInt8} (hm : b &&& m = v) : 0x80 &&& m = v &&& 0xc0 := by
    rw [← hb, ← hm, UInt8.and_assoc, UInt8.and_comm 0xc0, UInt8.and_assoc]
  rcases h with h | h | h | h <;> exact absurd (hboth h) (by decide)

theorem isContinuation_or (b : UInt8) : isContinuation (b &&& 0x3f ||| 0x80) = true := by
  rw [isContinuation, beq_iff_eq, ← UInt8.toBitVec_inj]
  simp only [UInt8.toBitVec_and, UInt8.toBitVec_or, BitVec.and_or_distrib_right, BitVec.and_assoc]
  simp

theorem isContinuation_of_mem_tail {c : Char} :
    ∀ b ∈ (String.utf8EncodeChar c).tail, isContinuation b = true := by
  rcases c.utf8Size_eq with hc | hc | hc | hc
  · rw [String.utf8EncodeChar_eq_singleton hc]
    exact nofun
  · simp [String.utf8EncodeChar_eq_cons_cons hc, isContinuation_or]
  · simp [String.utf8EncodeChar_eq_cons_cons_cons hc, isContinuation_or]
  · simp [String.utf8EncodeChar_eq_cons_cons_cons_cons hc, isContinuation_or]

/-- Among the bytes of a character only the first one does not go on with it. -/
theorem isUTF8FirstByte_iff {c : Char} {b : UInt8} (h : b ∈ String.utf8EncodeChar c) :
    b.IsUTF8FirstByte ↔ isContinuation b = false := by
  refine ⟨isContinuation_of_isUTF8FirstByte, fun hb => ?_⟩
  obtain ⟨k, hk, rfl⟩ := List.getElem_of_mem h
  cases k with
  | zero => exact UInt8.isUTF8FirstByte_getElem_zero_utf8EncodeChar
  | succ k =>
    have htail : (String.utf8EncodeChar c)[k + 1] ∈ (String.utf8EncodeChar c).tail := by
      rw [← List.getElem_tail (by rw [List.length_tail]; omega)]
      exact List.getElem_mem _
    rw [isContinuation_of_mem_tail _ htail] at hb
    cases hb

theorem exists_getUTF8Byte_mem {s : String} {p : String.Pos.Raw} (h : p < s.rawEndPos) :
    ∃ c, s.getUTF8Byte p h ∈ String.utf8EncodeChar c := by
  have hmem : s.getUTF8Byte p h ∈ s.toList.flatMap String.utf8EncodeChar := by
    simp only [String.getUTF8Byte, ← String.utf8Encode_toList, List.utf8Encode,
      List.getElem_toByteArray]
    exact List.getElem_mem _
  obtain ⟨c, -, hc⟩ := List.mem_flatMap.1 hmem
  exact ⟨c, hc⟩

theorem atBoundary_iff {s : String} {i : Nat} : atBoundary s i = true ↔ IsBoundary s i := by
  rw [isBoundary_iff_isValid, ← String.Pos.Raw.isValid_eq_true_iff]
  unfold atBoundary String.Pos.Raw.isValid
  by_cases h : i < s.utf8ByteSize
  · have hlt : (⟨i⟩ : String.Pos.Raw) < s.rawEndPos := h
    obtain ⟨c, hc⟩ := exists_getUTF8Byte_mem hlt
    rw [dif_pos h, dif_pos hlt, Bool.not_eq_true', decide_eq_true_iff]
    exact (isUTF8FirstByte_iff hc).symm
  · have hlt : ¬(⟨i⟩ : String.Pos.Raw) < s.rawEndPos := h
    rw [dif_neg h, dif_neg hlt, beq_iff_eq, decide_eq_true_iff, String.Pos.Raw.ext_iff,
      String.byteIdx_rawEndPos]

/-! ## The loop -/

/-- One turn of the loop: nothing more at a boundary, and else the next byte. -/
def climb? (s : String) (i : Position) : Option Position :=
  if atBoundary s i.toNat then none else some (i + 1)

/-- The loop moves from `i` to each position of `ps` in turn and ends at `b`. -/
inductive Climbs (s : String) : Position → List Position → Position → Prop
  | stop {i : Position} : climb? s i = none → Climbs s i [] i
  | turn {i j b : Position} {ps : List Position} :
      climb? s i = some j → Climbs s j ps b → Climbs s i (j :: ps) b

/-- Where the loop starts for `i`: the end of `s` if `i` is past it. -/
def foot (s : String) (i : Position) : Position := min i (.clamp s.utf8ByteSize)

variable {s : String} {i j e e' : Position} {ps ps' : List Position} {b : Nat}

theorem toNat_foot (s : String) (i : Position) :
    (foot s i).toNat = min i.toNat s.utf8ByteSize := by
  have hi := i.toNat_le_largest
  have hsize := Position.toNat_clamp s.utf8ByteSize
  change (if i ≤ .clamp s.utf8ByteSize then i else .clamp s.utf8ByteSize).toNat = _
  split
  case isTrue h =>
    rw [UInt64.le_iff_toNat_le] at h
    omega
  case isFalse h =>
    rw [UInt64.le_iff_toNat_le] at h
    omega

theorem climb?_eq_none_iff : climb? s i = none ↔ IsBoundary s i.toNat := by
  rw [← atBoundary_iff, climb?, ite_eq_left_iff]
  simp

theorem climb?_eq_some_iff : climb? s i = some j ↔ ¬IsBoundary s i.toNat ∧ j = i + 1 := by
  rw [← atBoundary_iff, climb?, Option.ite_none_left_eq_some, Option.some.injEq,
    eq_comm (a := j)]

/-- **A turn passes no boundary**, and its sum is exact. -/
theorem toNat_of_climb?_eq_some (hs : Addressable s) (hb : IsBoundary s b) (hi : i.toNat ≤ b)
    (h : climb? s i = some j) : j.toNat = i.toNat + 1 ∧ j.toNat ≤ b := by
  obtain ⟨hnot, rfl⟩ := climb?_eq_some_iff.1 h
  have hne : i.toNat ≠ b := fun heq => hnot (heq ▸ hb)
  have hsize := hb.le
  have hsum : (i + 1).toNat = i.toNat + 1 := by
    rw [UInt64.toNat_add, UInt64.toNat_one, Nat.mod_eq_of_lt]
    simp only [Addressable, Position.largest, UInt64.size] at hs
    omega
  omega

namespace Climbs

/-- **A run passes no boundary**, and takes a turn for each byte. -/
theorem of_le_boundary (hs : Addressable s) (hb : IsBoundary s b) (h : Climbs s i ps e)
    (hi : i.toNat ≤ b) :
    e.toNat = i.toNat + ps.length ∧ e.toNat ≤ b ∧ ∀ p ∈ ps, p.toNat ≤ b := by
  induction h with
  | stop _ => exact ⟨rfl, hi, nofun⟩
  | turn hturn _ ih =>
    obtain ⟨hj, hjb⟩ := toNat_of_climb?_eq_some hs hb hi hturn
    obtain ⟨hlength, heb, hps⟩ := ih hjb
    refine ⟨?_, heb, List.forall_mem_cons.2 ⟨hjb, hps⟩⟩
    rw [hlength, hj, List.length_cons]
    omega

theorem isBoundary (h : Climbs s i ps e) : IsBoundary s e.toNat := by
  induction h with
  | stop hstop => exact climb?_eq_none_iff.1 hstop
  | turn _ _ ih => exact ih

theorem unique (h : Climbs s i ps e) (h' : Climbs s i ps' e') : ps' = ps ∧ e' = e := by
  induction h generalizing ps' with
  | stop hstop =>
    cases h' with
    | stop _ => exact ⟨rfl, rfl⟩
    | turn hturn _ => rw [hstop] at hturn; cases hturn
  | turn hturn _ ih =>
    cases h' with
    | stop hstop => rw [hstop] at hturn; cases hturn
    | turn hturn' h' =>
      rw [hturn] at hturn'
      cases hturn'
      obtain ⟨rfl, rfl⟩ := ih h'
      exact ⟨rfl, rfl⟩

end Climbs

/-- A run that starts before a boundary ends. -/
theorem exists_climbs (hs : Addressable s) (hb : IsBoundary s b) (hi : i.toNat ≤ b) :
    ∃ ps e, Climbs s i ps e := by
  -- on the bytes left up to the boundary, of which a turn takes one
  generalize hn : b - i.toNat = n
  induction n generalizing i with
  | zero =>
    have heq : i.toNat = b := by omega
    exact ⟨[], i, .stop (climb?_eq_none_iff.2 (heq ▸ hb))⟩
  | succ n ih =>
    cases h : climb? s i with
    | none => exact ⟨[], i, .stop h⟩
    | some j =>
      obtain ⟨hj, hjb⟩ := toNat_of_climb?_eq_some hs hb hi h
      obtain ⟨ps, e, hps⟩ := ih hjb (by omega)
      exact ⟨j :: ps, e, .turn h hps⟩

/-- The run from the clamped position ends at the least boundary that is not before it. -/
theorem toNat_eq_ceil_of_climbs (hs : Addressable s) (h : Climbs s (foot s i) ps e) :
    e.toNat = ceil s i.toNat := by
  have hfoot := toNat_foot s i
  refine (ceil_eq_of_least h.isBoundary ?_ fun c hc hic => ?_).symm
  · obtain ⟨hlength, -⟩ := h.of_le_boundary hs (isBoundary_size s) (by omega)
    omega
  · exact (h.of_le_boundary hs hc (by omega)).2.1

/-- **Rounding a position.** From the clamped position the loop ends, in one way only; it takes at
most three turns, never leaves the text, and ends at `ceil`. And `ceil` is the least boundary at or
past the clamped position: hence a boundary is at or past the one exactly if it is at or past the
other, and rounding is monotone, idempotent, still at the boundaries alone, and in a concatenation
it is rounding in the parts. -/
theorem climbs_to_least_boundary (s : String) (hs : Addressable s) :
    (∀ i : Position, ∃ ps e, Climbs s (foot s i) ps e ∧
      (∀ ps' e', Climbs s (foot s i) ps' e' → ps' = ps ∧ e' = e) ∧
      ps.length ≤ 3 ∧ (∀ p ∈ ps, p.toNat ≤ s.utf8ByteSize) ∧ e.toNat = ceil s i.toNat) ∧
    (∀ i, IsBoundary s (ceil s i) ∧ min i s.utf8ByteSize ≤ ceil s i ∧
      ∀ b, IsBoundary s b → min i s.utf8ByteSize ≤ b → ceil s i ≤ b) ∧
    (∀ i b, IsBoundary s b → (ceil s i ≤ b ↔ min i s.utf8ByteSize ≤ b)) ∧
    (∀ i j, i ≤ j → ceil s i ≤ ceil s j) ∧
    (∀ i, ceil s (ceil s i) = ceil s i) ∧
    (∀ i, ceil s i = i ↔ IsBoundary s i) ∧
    ∀ u w : String,
      (∀ x, ceil (u ++ w) (u.utf8ByteSize + x) = u.utf8ByteSize + ceil w x) ∧
      ∀ x, x ≤ u.utf8ByteSize → ceil (u ++ w) x = ceil u x := by
  refine ⟨fun i => ?_, fun i => ?_, fun i b => ceil_le_iff, fun i j => ceil_mono s,
    fun i => ceil_eq_self (isBoundary_ceil s i), fun i => ceil_eq_self_iff, fun u w => ?_⟩
  · have hfoot := toNat_foot s i
    obtain ⟨ps, e, h⟩ := exists_climbs hs (isBoundary_size s) (i := foot s i) (by omega)
    obtain ⟨hlength, -, hps⟩ := h.of_le_boundary hs (isBoundary_size s) (by omega)
    have he := toNat_eq_ceil_of_climbs hs h
    have hthree := ceil_le_add_three s i.toNat
    exact ⟨ps, e, h, fun ps' e' => h.unique, by omega, hps, he⟩
  · exact ⟨isBoundary_ceil s i, le_ceil s i, fun b hb => (ceil_le_iff hb).2⟩
  · exact ⟨ceil_append_right u w, fun x => ceil_append_left⟩

/-- From the second byte of a character of four, three turns. -/
theorem climbs_to_least_boundary_inside_character :
    Addressable "é😀" ∧ Climbs "é😀" 3 [4, 5, 6] 6 ∧ ceil "é😀" 3 = 6 ∧ ¬ceil "é😀" 3 ≤ 2 ∧
      ceil "é😀" 1 ≤ ceil "é😀" 3 ∧ ceil ("é" ++ "😀") 1 = ceil "é" 1 := by
  have hs : Addressable "é😀" := by decide
  obtain ⟨hloop, -, hle, hmono, -, -, happend⟩ := climbs_to_least_boundary "é😀" hs
  obtain ⟨ps, e, -, hunique, -, -, he⟩ := hloop 3
  have hclimbs : Climbs "é😀" 3 [4, 5, 6] 6 :=
    .turn (by decide +kernel) (.turn (by decide +kernel) (.turn (by decide +kernel)
      (.stop (by decide +kernel))))
  obtain ⟨-, rfl⟩ := hunique [4, 5, 6] 6 hclimbs
  have hboundary : IsBoundary "é😀" 2 := ⟨"é", "😀", by decide, by decide⟩
  exact ⟨hs, hclimbs, he.symm, mt (hle 3 2 hboundary).1 (by decide), hmono 1 3 (by decide),
    (happend "é" "😀").2 1 (by decide)⟩

end TextCursor.Text
