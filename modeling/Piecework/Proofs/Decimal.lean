import Piecework.Decimal

/-!
# Digits read back

The digits that write a number are a numeral, and reading the numeral gives the number. A
numeral starts with a digit, so it is never taken for one with a sign.
-/

namespace Piecework.Decimal

/-- A digit that writes a number below ten is a digit and stands for this number. -/
theorem isDigit_digit_and_digitValue {n : Nat} (h : n < 10) :
    (digit n).isDigit = true ∧ digitValue (digit n) = n := by
  have hall : ∀ k < 10, (digit k).isDigit = true ∧ digitValue (digit k) = k := by decide
  exact hall n h

/-- One more digit counts ten times as much as is there and adds itself. -/
theorem value_concat (ds : List Char) (c : Char) :
    value (ds ++ [c]) = 10 * value ds + digitValue c := by
  rw [value, List.foldl_append]
  rfl

/-- The digits of a number are a numeral. -/
theorem isNumeral_digits (n : Nat) : isNumeral (digits n) = true := by
  fun_induction digits n with
  | case1 n h => simp [isNumeral, (isDigit_digit_and_digitValue h).1]
  | case2 n h ih =>
    have hlast := (isDigit_digit_and_digitValue (Nat.mod_lt n (by decide : 10 > 0))).1
    simp only [isNumeral, Bool.and_eq_true] at ih ⊢
    simp [ih.2, hlast]

/-- Reading the digits of a number gives the number. -/
theorem value_digits (n : Nat) : value (digits n) = n := by
  fun_induction digits n with
  | case1 n h => simp [value, (isDigit_digit_and_digitValue h).2]
  | case2 n h ih =>
    rw [value_concat, ih, (isDigit_digit_and_digitValue (Nat.mod_lt n (by decide))).2]
    exact Nat.div_add_mod n 10

/-- A numeral is a digit and further digits. -/
theorem exists_cons_of_isNumeral {cs : List Char} (h : isNumeral cs = true) :
    ∃ c ds, cs = c :: ds ∧ c.isDigit = true ∧ ds.all Char.isDigit = true := by
  cases cs with
  | nil => simp [isNumeral] at h
  | cons c ds => exact ⟨c, ds, rfl, by simpa [isNumeral] using h⟩

/-- Only zero is written with a leading zero, and then with no other digit. -/
theorem eq_nil_of_digits_eq_zero_cons {n : Nat} {ds : List Char} (h : digits n = '0' :: ds) :
    ds = [] := by
  fun_induction digits n generalizing ds with
  | case1 n _ => exact (List.cons.inj h).2.symm
  | case2 n hn ih =>
    obtain ⟨c, cs, hcs, _, _⟩ := exists_cons_of_isNumeral (isNumeral_digits (n / 10))
    rw [hcs] at h
    obtain rfl := (List.cons.inj h).1
    have hzero : n / 10 = 0 := by
      rw [← value_digits (n / 10), hcs, ih hcs]
      rfl
    omega

/-- A number below a power of ten is written with at most as many digits as the power has zeros. -/
theorem length_digits_le {n k : Nat} (hk : 0 < k) (h : n < Nat.pow 10 k) :
    (digits n).length ≤ k := by
  induction k generalizing n with
  | zero => contradiction
  | succ k ih =>
    rw [digits]
    split
    · exact hk
    · next hn =>
      have hk : 0 < k := by
        rcases Nat.eq_zero_or_pos k with rfl | hk
        · exact absurd h hn
        · exact hk
      have hlow : n / 10 < Nat.pow 10 k := (Nat.div_lt_iff_lt_mul (by decide)).mpr h
      rw [List.length_append]
      exact Nat.succ_le_succ (ih hk hlow)

/-! ## Numerals with and without a sign -/

/-- A digit differs from everything that is not one. -/
theorem ne_of_isDigit {c d : Char} (hc : c.isDigit = true) (hd : d.isDigit = false) : c ≠ d := by
  rintro rfl
  exact Bool.false_ne_true (hd.symm.trans hc)

/-- The digits of a number are digits. -/
theorem isDigit_of_mem_digits {n : Nat} {c : Char} (h : c ∈ digits n) : c.isDigit = true := by
  have hall := (Bool.and_eq_true_iff.mp (isNumeral_digits n)).2
  exact List.all_eq_true.mp hall c h

/-- A numeral without a sign is read as it stands. -/
theorem unsigned?_of_isNumeral {cs : List Char} (h : isNumeral cs = true) (limit : Nat) :
    unsigned? limit cs = bounded? limit cs := by
  obtain ⟨c, ds, rfl, hdigit, _⟩ := exists_cons_of_isNumeral h
  rw [unsigned?]
  exact fun cs heq => ne_of_isDigit hdigit (by decide) (List.cons.inj heq).1

/-- The digits of a number within a limit are read as the number. -/
theorem unsigned?_digits {limit n : Nat} (h : n ≤ limit) : unsigned? limit (digits n) = some n := by
  rw [unsigned?_of_isNumeral (isNumeral_digits n), bounded?,
    if_pos ⟨isNumeral_digits n, by rwa [value_digits]⟩, value_digits]

/-- What is read within a limit are digits after at most one plus sign, with a value that respects
the limit. -/
theorem unsigned?_eq_some_iff {limit n : Nat} {cs : List Char} :
    unsigned? limit cs = some n ↔
      ∃ ds, isNumeral ds = true ∧ (cs = ds ∨ cs = '+' :: ds) ∧ n = value ds ∧ n ≤ limit := by
  have hbounded {ds : List Char} :
      bounded? limit ds = some n ↔ isNumeral ds = true ∧ n = value ds ∧ n ≤ limit := by
    rw [bounded?, Option.ite_none_right_eq_some, Option.some.injEq, and_assoc]
    refine and_congr_right fun _ => ⟨?_, ?_⟩
    · rintro ⟨hle, rfl⟩
      exact ⟨rfl, hle⟩
    · rintro ⟨rfl, hle⟩
      exact ⟨hle, rfl⟩
  constructor
  · intro h
    unfold unsigned? at h
    split at h
    · next ds =>
      obtain ⟨hds, hn⟩ := hbounded.mp h
      exact ⟨ds, hds, .inr rfl, hn⟩
    · obtain ⟨hds, hn⟩ := hbounded.mp h
      exact ⟨cs, hds, .inl rfl, hn⟩
  · rintro ⟨ds, hds, rfl | rfl, hn⟩
    · rw [unsigned?_of_isNumeral hds]
      exact hbounded.mpr ⟨hds, hn⟩
    · exact hbounded.mpr ⟨hds, hn⟩

/-- What is read within a limit respects it. -/
theorem le_of_unsigned? {limit n : Nat} {cs : List Char} (h : unsigned? limit cs = some n) :
    n ≤ limit := by
  obtain ⟨_, _, _, _, hle⟩ := unsigned?_eq_some_iff.mp h
  exact hle

/-- A numeral without a sign is read as its value. -/
theorem signedValue?_of_isNumeral {cs : List Char} (h : isNumeral cs = true) :
    signedValue? cs = signed? (value cs) := by
  obtain ⟨c, ds, rfl, hdigit, _⟩ := exists_cons_of_isNumeral h
  rw [signedValue?]
  · rw [if_pos h]
  · exact fun cs heq => ne_of_isDigit hdigit (by decide) (List.cons.inj heq).1

/-- What is read as a signed 64-bit number are digits that denote it, after a minus sign if they
denote its negative. -/
theorem signedValue?_eq_some_iff {cs : List Char} {v : Int64} :
    signedValue? cs = some v ↔ ∃ ds, isNumeral ds = true ∧
      (cs = ds ∧ v.toInt = value ds ∨ cs = '-' :: ds ∧ v.toInt = -(value ds : Int)) := by
  have hsigned {ds : List Char} {i : Int} :
      (if isNumeral ds then signed? i else none) = some v ↔
        isNumeral ds = true ∧ v.toInt = i := by
    rw [Option.ite_none_right_eq_some]
    refine and_congr_right fun _ => ⟨toInt_of_signed?, ?_⟩
    rintro rfl
    exact signed?_toInt v
  constructor
  · intro h
    unfold signedValue? at h
    split at h
    · next ds =>
      obtain ⟨hds, hv⟩ := hsigned.mp h
      exact ⟨ds, hds, .inr ⟨rfl, hv⟩⟩
    · obtain ⟨hds, hv⟩ := hsigned.mp h
      exact ⟨cs, hds, .inl ⟨rfl, hv⟩⟩
  · rintro ⟨ds, hds, ⟨rfl, hv⟩ | ⟨rfl, hv⟩⟩
    · rw [signedValue?_of_isNumeral hds, ← hv, signed?_toInt]
    · exact hsigned.mpr ⟨hds, hv⟩

/-- The written form of a signed 64-bit number is read as the number. -/
theorem signedValue?_signedDigits (v : Int64) : signedValue? (signedDigits v.toInt) = some v := by
  unfold signedDigits
  split
  · next hneg =>
    have hvalue : -(v.toInt.natAbs : Int) = v.toInt := by omega
    rw [signedValue?, if_pos (isNumeral_digits _), value_digits, hvalue, signed?_toInt]
  · next hnonneg =>
    have hvalue : (v.toInt.natAbs : Int) = v.toInt := by omega
    rw [signedValue?_of_isNumeral (isNumeral_digits _), value_digits, hvalue, signed?_toInt]

end Piecework.Decimal
