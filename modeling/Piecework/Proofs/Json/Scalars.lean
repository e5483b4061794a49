import Piecework.Json.Scan
import Piecework.Proofs.Decimal

/-!
# Strings and integers of JSON text

A written character is read as itself, escaped or not, so what stands between the quotes of
a written string is its content. The digits of an integer are read up to the comma, bracket
or brace behind them, and a short integer is read as itself.
-/

namespace Piecework.Json

/-! ## Strings -/

/-- The hexadecimal digit of a number is read as the number. -/
theorem hexValue?_hexDigit {n : Nat} (h : n < 16) : hexValue? (hexDigit n) = some n := by
  have hall : ∀ k < 16, hexValue? (hexDigit k) = some k := by decide
  exact hall n h

/-- The four digits that write a control character are read as its number. -/
theorem hex4?_of_lt {n : Nat} (h : n < 0x20) :
    hex4? '0' '0' (hexDigit (n / 16)) (hexDigit (n % 16)) = some n := by
  have hzero : hexValue? '0' = some 0 := by decide
  have hhigh := hexValue?_hexDigit (by omega : n / 16 < 16)
  have hlow := hexValue?_hexDigit (by omega : n % 16 < 16)
  have hvalue : n / 16 * 16 + n % 16 = n := Nat.div_add_mod' n 16
  simp [hex4?, hzero, hhigh, hlow, hvalue]

/-- A character is written as a backslash and a letter that stands for it, as a backslash and four
hexadecimal digits if it is a control character, or as itself. -/
theorem escape_cases (c : Char) :
    (∃ letter, unescape? letter = some c ∧ letter ≠ 'u' ∧ escape c = ['\\', letter]) ∨
      (c.toNat < 0x20 ∧ escape c =
        ['\\', 'u', '0', '0', hexDigit (c.toNat / 16), hexDigit (c.toNat % 16)]) ∨
      (¬ c.toNat < 0x20 ∧ c ≠ '"' ∧ c ≠ '\\' ∧ escape c = [c]) := by
  by_cases hletter : c ∈ ['"', '\\', '\n', '\r', '\t', '\x08', '\x0c']
  · left
    simp only [List.mem_cons, List.not_mem_nil, or_false] at hletter
    rcases hletter with rfl | rfl | rfl | rfl | rfl | rfl | rfl
    · exact ⟨'"', rfl, by decide, rfl⟩
    · exact ⟨'\\', rfl, by decide, rfl⟩
    · exact ⟨'n', rfl, by decide, rfl⟩
    · exact ⟨'r', rfl, by decide, rfl⟩
    · exact ⟨'t', rfl, by decide, rfl⟩
    · exact ⟨'b', rfl, by decide, rfl⟩
    · exact ⟨'f', rfl, by decide, rfl⟩
  · right
    simp only [List.mem_cons, List.not_mem_nil, or_false, not_or] at hletter
    obtain ⟨hquote, hslash, hn, hr, ht, hb, hf⟩ := hletter
    rw [escape, if_neg hquote, if_neg hslash, if_neg hn, if_neg hr, if_neg ht, if_neg hb, if_neg hf]
    by_cases hcontrol : c.toNat < 0x20
    · exact .inl ⟨hcontrol, if_pos hcontrol⟩
    · exact .inr ⟨hcontrol, hquote, hslash, if_neg hcontrol⟩

/-- A written character adds itself to the content of a string. -/
theorem stringContent_escape (c : Char) (rest : List Char) :
    stringContent (escape c ++ rest) = withChar c (stringContent rest) := by
  rcases escape_cases c with ⟨letter, hletter, hu, heq⟩ | ⟨hcontrol, heq⟩ |
    ⟨hcontrol, hquote, hslash, heq⟩
  · simp [heq, stringContent, hu, hletter]
  · have hplain : ¬ (0xDC00 ≤ c.toNat ∧ c.toNat ≤ 0xDFFF) := by omega
    have hplain' : ¬ (0xD800 ≤ c.toNat ∧ c.toNat ≤ 0xDBFF) := by omega
    simp only [heq, List.cons_append, List.nil_append, stringContent, hex4?_of_lt hcontrol,
      if_neg hplain, if_neg hplain', Char.ofNat_toNat]
  · simp [heq, stringContent, hcontrol, hslash]

/-- A written character does not end a string. -/
theorem afterString_escape (c : Char) (rest : List Char) :
    afterString (escape c ++ rest) = afterString rest := by
  rcases escape_cases c with ⟨letter, hletter, hu, heq⟩ | ⟨hcontrol, heq⟩ |
    ⟨hcontrol, hquote, hslash, heq⟩
  · simp [heq, afterString, hu, hletter]
  · simp only [heq, List.cons_append, List.nil_append, afterString, hex4?_of_lt hcontrol]
  · simp [heq, afterString, hcontrol, hslash]

/-- The characters of a string between its quotes are read as the string. -/
theorem quoted_escape (s : String) (rest : List Char) :
    quoted (s.toList.flatMap escape ++ '"' :: rest) = (.text (.ok s), some rest) := by
  have hcontent (cs : List Char) :
      stringContent (cs.flatMap escape ++ '"' :: rest) = .ok cs ∧
        afterString (cs.flatMap escape ++ '"' :: rest) = .ok rest := by
    induction cs with
    | nil => simp [stringContent, afterString]
    | cons c cs ih =>
      rw [List.flatMap_cons, List.append_assoc, stringContent_escape, afterString_escape, ih.1, ih.2]
      exact ⟨rfl, rfl⟩
  obtain ⟨hcontent, hend⟩ := hcontent s.toList
  rw [quoted, hcontent, hend]
  simp [Except.map]

/-! ## Integers -/

/-- A text that may stand behind a value inside a list or a record, or at the end. -/
def IsBehindValue (cs : List Char) : Prop := ∀ c ∈ cs.head?, c = ',' ∨ c = ']' ∨ c = '\x7d'

/-- An integer of at most 200 digits, well inside the range of a double. -/
def IsShort (i : Int) : Prop := (Decimal.digits i.natAbs).length ≤ 200

/-- The digits of a number end where no digit follows. -/
theorem digitRun_digits (n : Nat) {rest : List Char} (hrest : IsBehindValue rest) :
    digitRun (Decimal.digits n ++ rest) = (Decimal.digits n, rest) := by
  have hdigits : ∀ c ∈ Decimal.digits n, c.isDigit = true :=
    fun c hc => Decimal.isDigit_of_mem_digits hc
  have hnone : ∀ c ∈ rest.head?, c.isDigit = false := by
    intro c hc
    rcases hrest c hc with rfl | rfl | rfl <;> decide
  rw [digitRun, List.takeWhile_append_of_pos hdigits, List.dropWhile_append_of_pos hdigits]
  cases rest with
  | nil => simp
  | cons c rest => simp [hnone c rfl]

/-- A number of at most 200 digits is not excessive. -/
theorem isExcessive_digits {n : Nat} (h : (Decimal.digits n).length ≤ 200) :
    isExcessive (Decimal.digits n) 0 = false := by
  rw [isExcessive, Decimal.value_digits]
  split
  · rfl
  · rw [if_neg (by omega), if_pos (by omega)]

/-- Digits without a fraction or an exponent behind them are an integer. -/
theorem fraction_digits {n : Nat} (h : (Decimal.digits n).length ≤ 200) (negative : Bool)
    (hsign : negative = true → n ≠ 0) {rest : List Char} (hrest : IsBehindValue rest) :
    fraction negative (Decimal.digits n) rest =
      (.number (.integer (if negative then -(n : Int) else n)), some rest) := by
  have hinteger : fraction negative (Decimal.digits n) rest =
      if negative then (.number (if n = 0 then .fraction else .integer (-(n : Int))), some rest)
      else (.number (.integer n), some rest) := by
    rw [fraction]
    · simp [isExcessive_digits h, Decimal.value_digits]
    all_goals
      rintro cs rfl
      rcases hrest _ rfl with hc | hc | hc <;> exact absurd hc (by decide)
  rw [hinteger]
  cases negative with
  | true => simp [hsign rfl]
  | false => simp

/-- The digits of a number are read as the number, and as its negation behind a minus sign. -/
theorem magnitude_digits {n : Nat} (h : (Decimal.digits n).length ≤ 200) (negative : Bool)
    (hsign : negative = true → n ≠ 0) {rest : List Char} (hrest : IsBehindValue rest) :
    magnitude negative (Decimal.digits n ++ rest) =
      (.number (.integer (if negative then -(n : Int) else n)), some rest) := by
  rw [magnitude, digitRun_digits n hrest]
  split
  · next heq =>
    have hnone : Decimal.digits n = [] := congrArg Prod.fst heq
    exact absurd (Decimal.isNumeral_digits n) (by simp [hnone, Decimal.isNumeral])
  · next heq =>
    have hzero := Decimal.eq_nil_of_digits_eq_zero_cons (congrArg Prod.fst heq)
    contradiction
  · next heq =>
    obtain ⟨rfl, rfl⟩ := Prod.mk.inj heq
    exact fraction_digits h negative hsign hrest

/-- A digit is no space. -/
theorem isSpace_of_isDigit {c : Char} (h : c.isDigit = true) : isSpace c = false := by
  have hne {d : Char} (hd : d.isDigit = false) : c ≠ d := Decimal.ne_of_isDigit h hd
  simp [isSpace, hne]

/-- A value that starts with a digit is a number. -/
theorem scan_of_isDigit {c : Char} (h : c.isDigit = true) (fuel : Nat) (cs : List Char) :
    scan (fuel + 1) (c :: cs) = magnitude false (c :: cs) := by
  have hskip : skipSpace (c :: cs) = c :: cs := by
    simp [skipSpace, isSpace_of_isDigit h]
  rw [scan, hskip]
  split
  -- All branches but the last want another first character.
  all_goals first
    | contradiction
    | next heq => exact absurd (List.cons.inj heq).1 (Decimal.ne_of_isDigit h (by decide))
    | next heq =>
      obtain ⟨rfl, rfl⟩ := List.cons.inj heq
      rw [if_pos h]

/-- A short integer is read as itself. -/
theorem scan_integer {i : Int} (h : IsShort i) {rest : List Char} (hrest : IsBehindValue rest)
    (fuel : Nat) :
    scan (fuel + 1) (Decimal.signedDigits i ++ rest) = (.number (.integer i), some rest) := by
  unfold IsShort at h
  rw [Decimal.signedDigits]
  split
  · next hneg =>
    have hvalue : -(i.natAbs : Int) = i := by omega
    have hread := magnitude_digits h true (fun _ => by omega) hrest
    rw [if_pos rfl, hvalue] at hread
    simpa [scan, skipSpace, isSpace] using hread
  · next hnonneg =>
    have hvalue : (i.natAbs : Int) = i := by omega
    have hread := magnitude_digits h false (fun h => by contradiction) hrest
    obtain ⟨c, ds, hcs, hdigit, _⟩ :=
      Decimal.exists_cons_of_isNumeral (Decimal.isNumeral_digits i.natAbs)
    rw [if_neg Bool.false_ne_true, hvalue, hcs, List.cons_append] at hread
    rw [hcs, List.cons_append, scan_of_isDigit hdigit, hread]

end Piecework.Json
