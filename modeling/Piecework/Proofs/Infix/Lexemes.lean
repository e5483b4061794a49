import Piecework.Infix

/-!
# Cutting infix text

What a text is cut into does not depend on where it stands, as long as no digit
follows a digit. So the lexemes of a text are those of its parts, one after the
other, and spacing adds none.
-/

namespace Piecework.Infix

/-- A text does not start with a digit. -/
def StartsWithoutDigit (cs : List Char) : Prop := ∀ c ∈ cs.head?, c.isDigit = false

/-- Behind a run of digits no digit follows. -/
theorem startsWithoutDigit_dropWhile (cs : List Char) :
    StartsWithoutDigit (cs.dropWhile Char.isDigit) := by
  intro d hd
  have hnone := List.head?_dropWhile_not Char.isDigit cs
  rwa [Option.mem_def.mp hd] at hnone

/-- A run of digits ends where no digit follows. -/
theorem StartsWithoutDigit.takeWhile_and_dropWhile {ds rest : List Char} (hrest : StartsWithoutDigit rest)
    (hds : ∀ c ∈ ds, c.isDigit = true) :
    (ds ++ rest).takeWhile Char.isDigit = ds ∧ (ds ++ rest).dropWhile Char.isDigit = rest := by
  rw [List.takeWhile_append_of_pos hds, List.dropWhile_append_of_pos hds]
  cases rest with
  | nil => simp
  | cons c rest => simp [hrest c rfl]

/-- A text is cut into these lexemes wherever it stands in front of something other than a digit. -/
def Lexes (cs : List Char) (ls : List Lexeme) : Prop :=
  ∀ position rest, StartsWithoutDigit rest →
    ∃ position', lexemes position (cs ++ rest) = ls ++ lexemes position' rest

/-- Nothing is cut into nothing. -/
theorem Lexes.nil : Lexes [] [] := fun position _ _ => ⟨position, rfl⟩

/-- Two texts are cut one after the other unless digits meet between them. -/
theorem Lexes.append {cs ds : List Char} {ls ms : List Lexeme} (h : Lexes cs ls)
    (h' : Lexes ds ms) (hmeet : StartsWithoutDigit ds) : Lexes (cs ++ ds) (ls ++ ms) := by
  intro position rest hrest
  have hboth : StartsWithoutDigit (ds ++ rest) := by
    cases ds with
    | nil => exact hrest
    | cons d ds => exact hmeet
  obtain ⟨middle, hfirst⟩ := h position (ds ++ rest) hboth
  obtain ⟨last, hsecond⟩ := h' middle rest hrest
  exact ⟨last, by rw [List.append_assoc, hfirst, hsecond, List.append_assoc]⟩

/-- A spacing character is no digit. -/
theorem isDigit_eq_false_of_isSpacing {c : Char} (h : isSpacing c = true) : c.isDigit = false := by
  simp only [isSpacing, Bool.or_eq_true, beq_iff_eq] at h
  rcases h with (((rfl | rfl) | rfl) | rfl) | rfl <;> decide

/-- Spacing in front of a text is skipped. -/
theorem Lexes.spaced {cs before : List Char} {ls : List Lexeme} (h : Lexes cs ls)
    (hbefore : before.all isSpacing) : Lexes (before ++ cs) ls := by
  induction before with
  | nil => exact h
  | cons c before ih =>
    obtain ⟨hc, hbefore⟩ := Bool.and_eq_true_iff.mp hbefore
    intro position rest hrest
    obtain ⟨position', htail⟩ := ih hbefore (position + 1) rest hrest
    refine ⟨position', ?_⟩
    have hdigit : c.isDigit = false := isDigit_eq_false_of_isSpacing hc
    simp only [List.cons_append, lexemes, hdigit, hc, Bool.false_eq_true, if_false, if_true]
    exact htail

/-- Spacing does not start with a digit. -/
theorem startsWithoutDigit_of_spacing {cs : List Char} (h : cs.all isSpacing) : StartsWithoutDigit cs := by
  cases cs with
  | nil => simp [StartsWithoutDigit]
  | cons c cs =>
    have hc : isSpacing c = true := (Bool.and_eq_true_iff.mp h).1
    simpa [StartsWithoutDigit] using isDigit_eq_false_of_isSpacing hc

/-- A character that is neither a digit nor spacing is a lexeme of its own. -/
theorem Lexes.cons {c : Char} {x : Lexeme} {cs : List Char} {ls : List Lexeme}
    (hdigit : c.isDigit = false) (hspacing : isSpacing c = false)
    (hx : ∀ position, Lexeme.ofChar position c = x) (h : Lexes cs ls) :
    Lexes (c :: cs) (x :: ls) := by
  intro position rest hrest
  obtain ⟨position', htail⟩ := h (position + c.utf8Size) rest hrest
  refine ⟨position', ?_⟩
  simp only [List.cons_append, lexemes, hdigit, hspacing, Bool.false_eq_true, if_false, hx, htail]

/-- The symbol of an operator is its lexeme. -/
theorem Lexes.symbol (op : Operator) {cs : List Char} {ls : List Lexeme} (h : Lexes cs ls) :
    Lexes (op.symbol :: cs) (.operator op :: ls) := by
  apply h.cons (by cases op <;> decide) (by cases op <;> decide)
  intro position
  have hopening : op.symbol ≠ '(' := by cases op <;> decide
  have hclosing : op.symbol ≠ ')' := by cases op <;> decide
  rw [Lexeme.ofChar, if_neg hopening, if_neg hclosing, Operator.ofSymbol?_symbol]

/-- Digits are cut into one number, because no digit follows them. -/
theorem Lexes.numeral {ds : List Char} {v : Int64} (hds : Decimal.isNumeral ds)
    (hv : signed? (Decimal.value ds) = some v) : Lexes ds [.number v] := by
  intro position rest hrest
  obtain ⟨hne, hall⟩ := Bool.and_eq_true_iff.mp hds
  cases ds with
  | nil => simp at hne
  | cons d ds =>
    obtain ⟨hd, hds⟩ := Bool.and_eq_true_iff.mp hall
    have hdigits : ∀ c ∈ ds, c.isDigit = true := List.all_eq_true.mp hds
    obtain ⟨htake, hdrop⟩ := hrest.takeWhile_and_dropWhile hdigits
    refine ⟨position + (d :: ds).length, ?_⟩
    have hnumber : Lexeme.ofDigits (d :: ds) = .number v := by
      rw [Lexeme.ofDigits, hv, Option.elim_some]
    simp only [List.cons_append, List.nil_append, lexemes, hd, if_true,
      htake, hdrop, hnumber]

/-! ## Literals -/

/-- The value of a literal. -/
def Lexeme.literal? : Lexeme → Option Int64
  | .number v => some v
  | _ => none

/-- Digits are cut into no negative literal. -/
theorem toInt_nonneg_of_ofDigits {ds : List Char} {v : Int64}
    (h : Lexeme.ofDigits ds = .number v) : 0 ≤ v.toInt := by
  unfold Lexeme.ofDigits at h
  cases hvalue : signed? (Decimal.value ds) with
  | none => simp [hvalue] at h
  | some w =>
    obtain rfl : w = v := by simpa [hvalue] using h
    rw [toInt_of_signed? hvalue]
    exact Int.natCast_nonneg _

/-- A character alone is no literal. -/
theorem ofChar_ne_number (position : Nat) (c : Char) (v : Int64) :
    Lexeme.ofChar position c ≠ .number v := by
  unfold Lexeme.ofChar
  split
  · simp
  · split
    · simp
    · split <;> simp

/-- No text is cut into a negative literal. -/
theorem toInt_nonneg_of_mem_lexemes {position : Nat} {cs : List Char} {v : Int64}
    (h : .number v ∈ lexemes position cs) : 0 ≤ v.toInt := by
  fun_induction lexemes position cs with
  | case1 => contradiction
  | case2 position c cs _ ds ih =>
    rcases List.mem_cons.mp h with hfirst | hrest
    · exact toInt_nonneg_of_ofDigits hfirst.symm
    · exact ih hrest
  | case3 position c cs _ _ ih => exact ih h
  | case4 position c cs _ _ ih =>
    rcases List.mem_cons.mp h with hfirst | hrest
    · exact absurd hfirst.symm (ofChar_ne_number position c v)
    · exact ih hrest

end Piecework.Infix
