import Mathlib.Data.List.Chain
import Piecework.Proofs.Infix.Faults
import Piecework.Proofs.Infix.Phrases

/-!
# Operators rise on the stack

An operator is put on the stack only after all that bind at least as tightly have left its top. So
between two open parentheses each operator on the stack binds more tightly than the one below it,
and since there are two binding strengths, no more than two wait there. The stack remembers exactly
the parentheses that are open in the text read so far, so these bound its height.
-/

namespace Piecework.Infix

/-- An entry of the stack may stand directly above another: an operator above an operator binds more
tightly, and a parenthesis stands above or below anything. -/
def Pending.Tops : Pending → Pending → Prop
  | .operator upper, .operator lower => lower.precedence < upper.precedence
  | _, _ => True

/-- A stack, top first, on which operators rise between the open parentheses. -/
def Rises (stack : List Pending) : Prop := stack.IsChain Pending.Tops

/-! ## Height -/

/-- The binding strength of an operator on top of a stack. -/
def topPrecedence : List Pending → Nat
  | .operator op :: _ => op.precedence
  | _ => 0

/-- There are two binding strengths. -/
theorem topPrecedence_le (stack : List Pending) : topPrecedence stack ≤ 2 := by
  unfold topPrecedence
  split
  · next op _ => cases op <;> decide
  · exact Nat.zero_le 2

/-- An operator that may stand on a stack binds more tightly than one on its top. -/
theorem topPrecedence_lt {op : Operator} {stack : List Pending}
    (h : Rises (.operator op :: stack)) : topPrecedence stack < op.precedence := by
  have hpos : 0 < op.precedence := by cases op <;> decide
  match stack with
  | [] | .opening :: _ => exact hpos
  | .operator lower :: _ => exact h.rel_head? rfl

/-- Every open parenthesis makes room for three entries, and behind the last one there are no more
operators than the top one has strength. -/
theorem Rises.length_le_add_topPrecedence {stack : List Pending} (h : Rises stack) :
    stack.length ≤ 3 * stack.count .opening + topPrecedence stack := by
  induction stack with
  | nil => exact Nat.zero_le _
  | cons entry stack ih =>
    have hbelow := ih h.tail
    cases entry with
    | operator op =>
      have hless : topPrecedence stack < op.precedence := topPrecedence_lt h
      simp only [List.length_cons, List.count_cons_of_ne, ne_eq, reduceCtorEq, not_false_eq_true]
      exact Nat.succ_le_of_lt (Nat.lt_of_le_of_lt hbelow (Nat.add_lt_add_left hless _))
    | opening =>
      have htwo := topPrecedence_le stack
      simp only [List.length_cons, List.count_cons_self]
      omega

/-- A stack on which operators rise has at most two entries more than three for every open
parenthesis. -/
theorem Rises.length_le {stack : List Pending} (h : Rises stack) :
    stack.length ≤ 3 * stack.count .opening + 2 :=
  h.length_le_add_topPrecedence.trans (Nat.add_le_add_left (topPrecedence_le stack) _)

/-- Operators that stand directly on each other bind more and more tightly, so there are at most
two of them. -/
theorem Rises.of_operators {stack : List Pending} (h : Rises stack) {ops : List Operator}
    (hops : ops.map .operator <:+: stack) :
    ops.Pairwise (fun upper lower => lower.precedence < upper.precedence) ∧ ops.length ≤ 2 := by
  have hrow : Rises (ops.map .operator) := h.infix hops
  constructor
  · have hchain : ops.IsChain fun upper lower => lower.precedence < upper.precedence :=
      (List.isChain_map _).mp hrow
    have htrans : Trans (fun upper lower : Operator => lower.precedence < upper.precedence)
        (fun upper lower : Operator => lower.precedence < upper.precedence)
        (fun upper lower : Operator => lower.precedence < upper.precedence) :=
      ⟨fun hupper hlower => Nat.lt_trans hlower hupper⟩
    exact hchain.pairwise
  · have hlength := hrow.length_le
    have hnone : (ops.map Pending.operator).count .opening = 0 :=
      List.count_eq_zero.mpr (by simp)
    rwa [List.length_map, hnone] at hlength

/-! ## The scan -/

/-- An operator may stand on what is left when it has released others. -/
theorem rises_release (op : Operator) (out : List Token) {stack : List Pending} (h : Rises stack) :
    Rises (.operator op :: (State.release op out stack).stack) := by
  fun_induction State.release op out stack with
  | case1 out top rest _ ih => exact ih h.tail
  | case2 out top rest hloose => exact List.IsChain.cons_cons (Nat.lt_of_not_le hloose) h
  | case3 out stack hother =>
    refine List.IsChain.cons h fun entry hentry => ?_
    cases entry with
    | opening => trivial
    | operator top =>
      obtain ⟨rest, rfl⟩ := List.head?_eq_some_iff.mp hentry
      exact absurd rfl (hother top rest)

/-- A closing parenthesis takes entries from the top only. -/
theorem suffix_stack_close {out : List Token} {stack : List Pending} {s : State}
    (h : State.close out stack = .ok s) : s.stack <:+ stack := by
  fun_induction State.close out stack with
  | case1 out top rest ih => exact (ih h).trans (List.suffix_cons _ _)
  | case2 out rest =>
    obtain rfl := Except.ok.inj h
    exact List.suffix_cons _ _
  | case3 => contradiction

/-- Reading a lexeme keeps the operators rising. -/
theorem Rises.read {s s' : State} {x : Lexeme} (h : Rises s.stack) (hread : s.read x = .ok s') :
    Rises s'.stack := by
  cases x with
  | number v =>
    obtain rfl := Except.ok.inj hread
    exact h
  | operator op =>
    obtain rfl := Except.ok.inj hread
    exact rises_release op s.emitted h
  | opening =>
    obtain rfl := Except.ok.inj hread
    exact List.IsChain.cons h fun _ _ => trivial
  | closing => exact h.suffix (suffix_stack_close hread)
  | oversized ds | stray c position => contradiction

/-- Reading a row of lexemes keeps the operators rising. -/
theorem Rises.readAll {s s' : State} {xs : List Lexeme} (h : Rises s.stack)
    (hread : readAll s xs = .ok s') : Rises s'.stack := by
  induction xs generalizing s with
  | nil =>
    obtain rfl := Except.ok.inj hread
    exact h
  | cons x xs ih =>
    rw [Infix.readAll] at hread
    split at hread
    · contradiction
    · next hfirst => exact ih (h.read hfirst) hread

/-- The stack behind a text that has been read remembers the parentheses that are open in it. -/
theorem count_opening_readAll {cs : List Char} {s : State}
    (h : readAll {} (lexemes 0 cs) = .ok s) : s.stack.count .opening = unmatched cs := by
  have hjudged : Judged cs (readAll {} (lexemes 0 cs)) :=
    judged_readAll rfl rfl .nil (fun _ _ _ _ hlt => absurd hlt (Nat.not_lt_zero _)) (.inr nofun)
  rw [h] at hjudged
  exact hjudged.2.openings

/-! ## Points of the scan -/

/-- A part of a text from its start begins like the text. -/
theorem StartsWithoutDigit.mono {cs ds : List Char} (h : StartsWithoutDigit cs)
    (hds : ds <+: cs) : StartsWithoutDigit ds := by
  intro d hd
  obtain ⟨rest, rfl⟩ := hds
  exact h d (List.mem_head?_append_of_mem_head? hd)

/-- The first lexemes of a text are those of a part of the text from its start. -/
theorem exists_prefix_of_lexemes {position : Nat} {cs : List Char} {xs : List Lexeme}
    (h : xs <+: lexemes position cs) : ∃ before, before <+: cs ∧ lexemes position before = xs := by
  fun_induction lexemes position cs generalizing xs with
  | case1 position => exact ⟨[], List.nil_prefix, by rw [List.prefix_nil.mp h, lexemes]⟩
  | case2 position c cs hc ds =>
    rename_i ih
    rcases List.prefix_cons_iff.mp h with rfl | ⟨xs, rfl, hxs⟩
    · exact ⟨[], List.nil_prefix, by rw [lexemes]⟩
    · obtain ⟨before, hbefore, rfl⟩ := ih hxs
      -- no digit follows the whole run, so a part of the rest does not lengthen it
      have hstart : StartsWithoutDigit before := (startsWithoutDigit_dropWhile cs).mono hbefore
      have hds : ∀ d ∈ cs.takeWhile Char.isDigit, d.isDigit = true := fun d hd =>
        List.mem_takeWhile_imp hd
      obtain ⟨htake, hdrop⟩ := hstart.takeWhile_and_dropWhile hds
      refine ⟨c :: (cs.takeWhile Char.isDigit ++ before), ?_, ?_⟩
      · have hrest := (List.prefix_append_right_inj (cs.takeWhile Char.isDigit)).mpr hbefore
        rw [List.takeWhile_append_dropWhile] at hrest
        exact List.cons_prefix_cons.mpr ⟨rfl, hrest⟩
      · rw [lexemes, if_pos hc, htake, hdrop]
  | case3 position c cs hc hspacing ih =>
    obtain ⟨before, hbefore, rfl⟩ := ih h
    refine ⟨c :: before, List.cons_prefix_cons.mpr ⟨rfl, hbefore⟩, ?_⟩
    rw [lexemes, if_neg hc, if_pos hspacing]
  | case4 position c cs hc hspacing ih =>
    rcases List.prefix_cons_iff.mp h with rfl | ⟨xs, rfl, hxs⟩
    · exact ⟨[], List.nil_prefix, by rw [lexemes]⟩
    · obtain ⟨before, hbefore, rfl⟩ := ih hxs
      refine ⟨c :: before, List.cons_prefix_cons.mpr ⟨rfl, hbefore⟩, ?_⟩
      rw [lexemes, if_neg hc, if_neg hspacing]

/-- A point of the scan over a text, by the part of the text that has been read and the stack. It lies
between two lexemes, or inside a number, or where some operators have just left the top of the stack;
a closing parenthesis counts as read when the one that it closes has left as well. -/
inductive Visits (text : List Char) : List Char → List Pending → Prop where
  | between {before : List Char} {s : State} : before <+: text →
      lexemes 0 before <+: lexemes 0 text → readAll {} (lexemes 0 before) = .ok s →
      Visits text before s.stack
  | digits {before ds : List Char} {stack : List Pending} : Visits text before stack →
      before ++ ds <+: text → (∀ c ∈ ds, c.isDigit = true) → Visits text (before ++ ds) stack
  | released {before : List Char} {op : Operator} {stack : List Pending} :
      Visits text before (.operator op :: stack) → Visits text before stack

/-- At every point of the scan the operators rise, and the open parentheses are those of the text. -/
theorem Visits.rises_and_count {text before : List Char} {stack : List Pending}
    (h : Visits text before stack) :
    Rises stack ∧ stack.count .opening = unmatched before := by
  induction h with
  | between _ _ hread =>
    have hempty : Rises ({} : State).stack := .nil
    exact ⟨hempty.readAll hread, count_opening_readAll hread⟩
  | digits _ _ hds ih =>
    rw [unmatched_append, foldl_matchParenthesis_of_digits _ hds]
    exact ih
  | released _ ih => exact ⟨ih.1.tail, by simpa using ih.2⟩

/-- Whenever the compiler has read some lexemes of a text, it is at a point of the scan. At every
point of the scan over any text, also over one that is refused later, operators that stand directly
on each other bind more tightly from the bottom to the top, so there are at most two of them; the
stack holds as many open parentheses as are unmatched in the text read so far; and it has at most
three entries for each of these and two more. -/
theorem operators_rise (text : String) :
    (∀ read s, read <+: lexemes 0 text.toList → readAll {} read = .ok s →
      ∃ before, lexemes 0 before = read ∧ Visits text.toList before s.stack) ∧
    ∀ before stack, Visits text.toList before stack →
      (∀ ops : List Operator, ops.map .operator <:+: stack →
        ops.Pairwise (fun upper lower => lower.precedence < upper.precedence) ∧ ops.length ≤ 2) ∧
      stack.count .opening = unmatched before ∧ stack.length ≤ 3 * unmatched before + 2 := by
  refine ⟨fun read s hread hs => ?_, fun before stack hpoint => ?_⟩
  · obtain ⟨before, hbefore, rfl⟩ := exists_prefix_of_lexemes hread
    exact ⟨before, rfl, .between hbefore hread hs⟩
  · obtain ⟨hrises, hcount⟩ := hpoint.rises_and_count
    exact ⟨fun ops hops => hrises.of_operators hops, hcount, hcount ▸ hrises.length_le⟩

/-- Behind two open parentheses the stack is as high as it can be, with two operators in front of
each and two behind them. -/
theorem operators_rise_to_full_height :
    let text := "1+2*(3+4*(5+6*"
    let stack : List Pending := [.operator .mul, .operator .add, .opening, .operator .mul,
      .operator .add, .opening, .operator .mul, .operator .add]
    Visits text.toList text.toList stack ∧ stack.length = 3 * unmatched text.toList + 2 ∧
      ∀ ops : List Operator, ops.map .operator <:+: stack → ops.length ≤ 2 := by
  intro text stack
  have hlexemes : lexemes 0 text.toList = [.number 1, .operator .add, .number 2, .operator .mul,
      .opening, .number 3, .operator .add, .number 4, .operator .mul, .opening, .number 5,
      .operator .add, .number 6, .operator .mul] := by decide +kernel
  have hread : readAll {} (lexemes 0 text.toList) =
      .ok ⟨[.number 6, .number 5, .number 4, .number 3, .number 2, .number 1], stack⟩ := by
    rw [hlexemes]
    rfl
  have hvisits : Visits text.toList text.toList stack :=
    .between List.prefix_rfl List.prefix_rfl hread
  obtain ⟨hrows, -, -⟩ := (operators_rise text).2 _ _ hvisits
  exact ⟨hvisits, by decide, fun ops hops => (hrows ops hops).2⟩

end Piecework.Infix
