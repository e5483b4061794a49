import Mathlib.Data.List.TakeWhile
import Piecework.Infix
import Piecework.Proofs.Infix.Lexemes

/-!
# The scan over infix text

What the compiler is in after a part of a text, told by the characters of that part from the left:
spacing changes nothing, and every other character or run of digits is one lexeme that is read. A
property of the scan is proved along this relation, with one case for each kind of piece.
-/

namespace Piecework.Infix

/-- The compiler is in a state after it has read a text. -/
inductive Scans : List Char → State → Prop where
  | start : Scans [] {}
  | number {before ds : List Char} {s : State} {v : Int64} : Scans before s →
      (∀ c ∈ before.getLast?, c.isDigit = false) → ds ≠ [] → (∀ c ∈ ds, c.isDigit = true) →
      signed? (Decimal.value ds) = some v →
      Scans (before ++ ds) { s with emitted := .number v :: s.emitted }
  | spacing {before : List Char} {s : State} {c : Char} : Scans before s → isSpacing c = true →
      Scans (before ++ [c]) s
  | operator {before : List Char} {s s' : State} {op : Operator} : Scans before s →
      s.read (.operator op) = .ok s' → Scans (before ++ [op.symbol]) s'
  | opening {before : List Char} {s : State} : Scans before s →
      Scans (before ++ ['(']) { s with stack := .opening :: s.stack }
  | closing {before : List Char} {s s' : State} : Scans before s →
      State.close s.emitted s.stack = .ok s' → Scans (before ++ [')']) s'

variable {before cs : List Char} {s s' : State}

/-- A digit that is read without an error belongs to a number. -/
theorem Scans.digits {ds : List Char} (h : Scans before s)
    (hlast : ∀ c ∈ before.getLast?, c.isDigit = false) (hne : ds ≠ [])
    (hds : ∀ c ∈ ds, c.isDigit = true) (hread : s.read (.ofDigits ds) = .ok s') :
    Scans (before ++ ds) s' := by
  unfold Lexeme.ofDigits at hread
  cases hvalue : signed? (Decimal.value ds) with
  | none =>
    rw [hvalue] at hread
    contradiction
  | some v =>
    rw [hvalue] at hread
    obtain rfl := Except.ok.inj hread
    exact h.number hlast hne hds hvalue

/-- Any other character that is read without an error is a parenthesis or an operator. -/
theorem Scans.char {position : Nat} {c : Char} (h : Scans before s)
    (hread : s.read (.ofChar position c) = .ok s') : Scans (before ++ [c]) s' := by
  unfold Lexeme.ofChar at hread
  split at hread
  · next hopening =>
    obtain rfl := Except.ok.inj hread
    exact hopening ▸ h.opening
  · split at hread
    · next hclosing => exact hclosing ▸ h.closing hread
    · split at hread
      · next op hop =>
        rw [Operator.eq_symbol_of_ofSymbol? hop]
        exact h.operator hread
      · contradiction

/-- Reading the lexemes of a text is a scan over the text, if no number is cut in two before it. -/
theorem Scans.readAll {position : Nat} (h : Scans before s)
    (hcut : StartsWithoutDigit cs ∨ ∀ c ∈ before.getLast?, c.isDigit = false)
    (hread : readAll s (lexemes position cs) = .ok s') : Scans (before ++ cs) s' := by
  fun_induction lexemes position cs generalizing before s with
  | case1 position =>
    obtain rfl := Except.ok.inj hread
    rwa [List.append_nil]
  | case2 position c cs hc ds =>
    rename_i ih
    have hlast := hcut.resolve_left fun hno => Bool.false_ne_true ((hno c rfl).symm.trans hc)
    have hds : ∀ d ∈ c :: cs.takeWhile Char.isDigit, d.isDigit = true :=
      List.forall_mem_cons.mpr ⟨hc, fun d hd => List.mem_takeWhile_imp hd⟩
    rw [Infix.readAll] at hread
    split at hread
    · contradiction
    · next hfirst =>
      have hwhole := ih (h.digits hlast (List.cons_ne_nil _ _) hds hfirst)
        (.inl (startsWithoutDigit_dropWhile cs)) hread
      rwa [List.append_assoc, List.cons_append, List.takeWhile_append_dropWhile] at hwhole
  | case3 position c cs _ hspacing ih =>
    rw [List.append_cons]
    have hdigit := isDigit_eq_false_of_isSpacing hspacing
    exact ih (h.spacing hspacing) (.inr (by simpa using hdigit)) hread
  | case4 position c cs hc _ ih =>
    rw [Infix.readAll] at hread
    split at hread
    · contradiction
    · next hfirst =>
      rw [List.append_cons]
      exact ih (h.char hfirst) (.inr (by simpa using hc)) hread

/-- A text that compiles is scanned to its end, and what is left on the stack is drained then. -/
theorem exists_scans_of_compile {text : String} {p : Program} (h : compile text = .ok p) :
    ∃ s, Scans text.toList s ∧ State.drain s.emitted s.stack = .ok p.reverse := by
  unfold compile at h
  split at h
  · contradiction
  · next s hread =>
    refine ⟨s, Scans.start.readAll (.inr nofun) hread, ?_⟩
    unfold State.finish at h
    split at h
    · contradiction
    · contradiction
    · next out _ hdrain =>
      obtain rfl := Except.ok.inj h
      rw [hdrain, List.reverse_reverse]

end Piecework.Infix
