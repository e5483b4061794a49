import Mathlib.Data.List.Basic
import Piecework.Infix
import Piecework.Proofs.Infix.Output

/-!
# What the compiler holds

Between two lexemes the compiler holds the operands and operators that it has read, some of them
emitted and some on the stack, and it loses and invents none. The stack also remembers which
parentheses are open. So a text compiles to a program that has the same tokens in another order.
-/

namespace Piecework.Infix

/-- The token that a lexeme puts into the program. -/
def Lexeme.token? : Lexeme → Option Token
  | .number v => some (.number v)
  | .operator op => some (.operator op)
  | _ => none

/-- The number of open parentheses after a lexeme. -/
def Lexeme.enclose (n : Nat) : Lexeme → Nat
  | .opening => n + 1
  | .closing => n - 1
  | _ => n

/-- The token for which an entry of the stack stands. -/
def Pending.token? : Pending → Option Token
  | .operator op => some (.operator op)
  | .opening => none

namespace State

/-- The tokens that have been read, on the stack or emitted. -/
def held (s : State) : List Token := s.stack.filterMap Pending.token? ++ s.emitted

/-- Releasing operators moves them from the stack to the output. -/
theorem held_release (op : Operator) (out : List Token) (stack : List Pending) :
    (release op out stack).held.Perm (held ⟨out, stack⟩) := by
  fun_induction release op out stack with
  | case1 out top rest _ ih => exact ih.trans List.perm_middle
  | case2 => exact List.Perm.refl _
  | case3 => exact List.Perm.refl _

/-- Releasing operators closes no parenthesis. -/
theorem count_opening_release (op : Operator) (out : List Token) (stack : List Pending) :
    (release op out stack).stack.count .opening = stack.count .opening := by
  fun_induction release op out stack with
  | case1 out top rest _ ih => simpa using ih
  | case2 => rfl
  | case3 => rfl

/-- A closing parenthesis needs an open one. -/
theorem close_of_count_eq_zero (out : List Token) {stack : List Pending}
    (h : stack.count .opening = 0) : close out stack = .error .mismatchedParentheses := by
  fun_induction close out stack with
  | case1 out top rest ih => exact ih (by simpa using h)
  | case2 => simp at h
  | case3 => rfl

/-- A closing parenthesis closes the last open one and moves the operators behind that to the
output. -/
theorem exists_close (out : List Token) {stack : List Pending} (h : stack.count .opening ≠ 0) :
    ∃ s', close out stack = .ok s' ∧ s'.held.Perm (held ⟨out, stack⟩) ∧
      s'.stack.count .opening = stack.count .opening - 1 := by
  fun_induction close out stack with
  | case1 out top rest ih =>
    obtain ⟨s', hs', hheld, hcount⟩ := ih (by simpa using h)
    exact ⟨s', hs', hheld.trans List.perm_middle, by simpa using hcount⟩
  | case2 out rest => exact ⟨⟨out, rest⟩, rfl, List.Perm.refl _, by simp⟩
  | case3 => simp at h

/-- Reading a lexeme adds its token to what is held and opens or closes what it encloses. -/
theorem held_and_count_of_read {s s' : State} {x : Lexeme} (h : s.read x = .ok s') :
    s'.held.Perm (x.token?.toList ++ s.held) ∧
      s'.stack.count .opening = x.enclose (s.stack.count .opening) := by
  cases x with
  | number v =>
    obtain rfl := Except.ok.inj h
    exact ⟨List.perm_middle, rfl⟩
  | operator op =>
    obtain rfl := Except.ok.inj h
    exact ⟨(held_release op s.emitted s.stack).cons _,
      (List.count_cons_of_ne (by simp)).trans (count_opening_release op s.emitted s.stack)⟩
  | opening =>
    obtain rfl := Except.ok.inj h
    exact ⟨List.Perm.refl _, List.count_cons_self⟩
  | closing =>
    by_cases hopen : s.stack.count .opening = 0
    · rw [State.read, close_of_count_eq_zero _ hopen] at h
      contradiction
    · obtain ⟨t, ht, hheld, hcount⟩ := exists_close s.emitted hopen
      obtain rfl := Except.ok.inj (ht.symm.trans h)
      exact ⟨hheld, hcount⟩
  | oversized ds | stray c position => contradiction

/-- The end of the text needs all parentheses closed. -/
theorem drain_of_count_ne_zero (out : List Token) {stack : List Pending}
    (h : stack.count .opening ≠ 0) : drain out stack = .error .mismatchedParentheses := by
  fun_induction drain out stack with
  | case1 out top rest ih => exact ih (by simpa using h)
  | case2 => rfl
  | case3 => simp at h

/-- With all parentheses closed, the end of the text moves what is held to the output. -/
theorem exists_drain (out : List Token) {stack : List Pending} (h : stack.count .opening = 0) :
    ∃ out', drain out stack = .ok out' ∧ out'.Perm (held ⟨out, stack⟩) := by
  fun_induction drain out stack with
  | case1 out top rest ih =>
    obtain ⟨out', hout', hheld⟩ := ih (by simpa using h)
    exact ⟨out', hout', hheld.trans List.perm_middle⟩
  | case2 => simp at h
  | case3 out => exact ⟨out, rfl, List.Perm.refl _⟩

/-- The end of the text, if it is not refused, moves what is held to the output. -/
theorem held_of_drain {s : State} {out : List Token} (h : drain s.emitted s.stack = .ok out) :
    out.Perm s.held := by
  by_cases hclosed : s.stack.count .opening = 0
  · obtain ⟨out', hout', hheld⟩ := exists_drain s.emitted hclosed
    exact Except.ok.inj (hout'.symm.trans h) ▸ hheld
  · rw [drain_of_count_ne_zero _ hclosed] at h
    contradiction

end State

end Piecework.Infix
