/-!
# Numbers that fit in a word

Results are signed 64-bit integers, and arithmetic on them is exact or fails.
Identifiers and durations are plain naturals inside the library; this module
also names the bound that written ones must respect.
-/

namespace Piecework

/-- The largest unsigned 64-bit number. -/
def wordMax : Nat := UInt64.size - 1

/-- An integer as a signed 64-bit number, when it lies in that range. -/
def signed? (i : Int) : Option Int64 :=
  if Int64.minValue.toInt ≤ i ∧ i ≤ Int64.maxValue.toInt then some (Int64.ofInt i) else none

/-- A number in range is represented by itself. -/
theorem toInt_of_signed? {i : Int} {v : Int64} (h : signed? i = some v) : v.toInt = i := by
  unfold signed? at h
  split at h
  · next hi =>
    obtain rfl := Option.some.inj h
    rw [Int64.toInt_minValue, Int64.toInt_maxValue] at hi
    exact Int64.toInt_ofInt_of_le hi.1 (Int.lt_of_le_sub_one hi.2)
  · exact absurd h (by simp)

/-- Every signed 64-bit number is in range. -/
theorem signed?_toInt (v : Int64) : signed? v.toInt = some v := by
  rw [signed?, if_pos ⟨Int64.minValue_le_toInt v, Int64.toInt_le v⟩, Int64.ofInt_toInt]

end Piecework
