/-!
# Byte positions

Offsets and lengths are 64-bit words. Arithmetic on them is exact arithmetic on natural numbers,
clamped to the largest word (`toNat_clamp`), so it never wraps.
-/

namespace TextCursor

/-- A byte offset or a byte length. -/
abbrev Position := UInt64

namespace Position

/-- The largest position. -/
def largest : Nat := UInt64.size - 1

/-- The position nearest to `n`. -/
def clamp (n : Nat) : Position := .ofNatClamp n

@[simp] theorem toNat_clamp (n : Nat) : (clamp n).toNat = min n largest := by
  unfold clamp largest
  rcases Nat.lt_or_ge n UInt64.size with h | h
  · rw [UInt64.toNat_ofNatClamp_of_lt h]
    omega
  · rw [UInt64.toNat_ofNatClamp_of_le h]
    omega

theorem toNat_le_largest (p : Position) : p.toNat ≤ largest :=
  Nat.le_sub_one_of_lt p.toNat_lt

@[simp] theorem clamp_toNat (p : Position) : clamp p.toNat = p := UInt64.ofNatClamp_toNat p

end Position

end TextCursor
