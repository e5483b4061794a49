import Piecework.Infix.Grammar
import Piecework.Proofs.Infix.Lexemes

/-!
# Compiling a phrase

The operator stack turns the lexemes of a phrase into the program of the tree that
the phrase spells. The stack below a phrase plays no part as long as its top
operator binds less tightly than the phrase, so the argument goes along the rules
of the grammar.
-/

namespace Piecework.Infix

/-! ## The operator stack -/

/-- An operator releases a row of operators that bind at least as tightly, and stops below them. -/
theorem release_operators {op : Operator} {ops : List Operator} {stack : List Pending}
    (hops : ∀ o ∈ ops, op.precedence ≤ o.precedence)
    (hstack : ∀ o rest, stack = .operator o :: rest → o.precedence < op.precedence)
    (out : List Token) :
    State.release op out (ops.map .operator ++ stack) =
      ⟨(ops.map Token.operator).reverse ++ out, stack⟩ := by
  induction ops generalizing out with
  | nil =>
    match stack with
    | [] => rfl
    | .opening :: rest => rfl
    | .operator o :: rest => exact if_neg (Nat.not_le_of_lt (hstack o rest rfl))
  | cons o ops ih =>
    have ho : op.precedence ≤ o.precedence := hops o List.mem_cons_self
    have htail := ih (fun o' ho' => hops o' (List.mem_cons_of_mem _ ho')) (.operator o :: out)
    simp [State.release, ho, htail]

/-- A closing parenthesis releases a row of operators down to the opening one. -/
theorem close_operators (ops : List Operator) (rest : List Pending) (out : List Token) :
    State.close out (ops.map .operator ++ .opening :: rest) =
      .ok ⟨(ops.map Token.operator).reverse ++ out, rest⟩ := by
  induction ops generalizing out with
  | nil => rfl
  | cons o ops ih => simp [State.close, ih]

/-- The end of the text releases a row of operators. -/
theorem drain_operators (ops : List Operator) (out : List Token) :
    State.drain out (ops.map .operator) = .ok ((ops.map Token.operator).reverse ++ out) := by
  induction ops generalizing out with
  | nil => rfl
  | cons o ops ih => simp [State.drain, ih]

/-- Reading goes on from the state that a first row of lexemes led to. -/
theorem readAll_append {s s' : State} {xs : List Lexeme} (h : readAll s xs = .ok s')
    (ys : List Lexeme) : readAll s (xs ++ ys) = readAll s' ys := by
  induction xs generalizing s with
  | nil =>
    obtain rfl := Except.ok.inj h
    rfl
  | cons x xs ih =>
    simp only [readAll, List.cons_append] at h ⊢
    split at h
    · contradiction
    · next hread => exact ih h

/-- A stack lets a phrase of some strength pass: an operator on its top binds less tightly. -/
def Admits (strength : Nat) (stack : List Pending) : Prop :=
  ∀ op rest, stack = .operator op :: rest → op.precedence < strength

/-- Lexemes are read as a tree: on top of any stack that admits them they leave operators of their
own strength at least, and with these released they have emitted the program of the tree. -/
def ReadsAs (strength : Nat) (t : Tree) (ls : List Lexeme) : Prop :=
  ∀ s : State, Admits strength s.stack →
    ∃ (ops : List Operator) (out : List Token),
      readAll s ls = .ok ⟨out, ops.map .operator ++ s.stack⟩ ∧
      (∀ op ∈ ops, strength ≤ op.precedence) ∧
      (ops.map Token.operator).reverse ++ out = t.program.reverse ++ s.emitted

/-- A number is read as a literal. -/
theorem ReadsAs.literal (strength : Nat) (v : Int64) :
    ReadsAs strength (.literal v) [.number v] :=
  fun s _ => ⟨[], .number v :: s.emitted, rfl, by simp, rfl⟩

/-- A phrase is also one of less strength. -/
theorem ReadsAs.mono {n n' : Nat} {t : Tree} {ls : List Lexeme} (h : ReadsAs n t ls)
    (hle : n' ≤ n) : ReadsAs n' t ls := by
  intro s hs
  have hadmits : Admits n s.stack := fun op rest heq => Nat.lt_of_lt_of_le (hs op rest heq) hle
  obtain ⟨ops, out, hread, hops, hout⟩ := h s hadmits
  exact ⟨ops, out, hread, fun op hop => Nat.le_trans hle (hops op hop), hout⟩

/-- Parentheses hide the stack below them, and leave nothing on it. -/
theorem ReadsAs.parentheses {n : Nat} {t : Tree} {ls : List Lexeme} (h : ReadsAs n t ls)
    (n' : Nat) : ReadsAs n' t (.opening :: ls ++ [.closing]) := by
  intro s _
  obtain ⟨ops, out, hread, _, hout⟩ :=
    h ⟨s.emitted, .opening :: s.stack⟩ fun op rest heq => by simp at heq
  refine ⟨[], t.program.reverse ++ s.emitted, ?_, by simp, rfl⟩
  have hinner : readAll s (.opening :: ls) =
      .ok ⟨out, ops.map .operator ++ .opening :: s.stack⟩ := hread
  rw [readAll_append hinner, readAll, State.read, close_operators, hout]
  rfl

/-- An operator releases what its left operand has left on the stack, and then waits there itself
for its right operand, which binds more tightly. -/
theorem ReadsAs.node {n : Nat} {op : Operator} {left right : Tree} {ls ms : List Lexeme}
    (hop : op.precedence = n) (hleft : ReadsAs n left ls) (hright : ReadsAs (n + 1) right ms) :
    ReadsAs n (.node op left right) (ls ++ .operator op :: ms) := by
  subst hop
  intro s hs
  obtain ⟨ops, out, hread, hops, hout⟩ := hleft s hs
  let waiting : State := ⟨left.program.reverse ++ s.emitted, .operator op :: s.stack⟩
  obtain ⟨ops', out', hread', hops', hout'⟩ := hright waiting fun o rest heq => by
    obtain ⟨hop, _⟩ := List.cons.inj heq
    obtain rfl := Pending.operator.inj hop
    exact Nat.lt_succ_self _
  refine ⟨ops' ++ [op], out', ?_, ?_, ?_⟩
  · rw [readAll_append hread, readAll, State.read, release_operators hops hs, hout]
    simpa using hread'
  · intro o ho
    rcases List.mem_append.mp ho with ho | ho
    · exact Nat.le_of_succ_le (hops' o ho)
    · exact Nat.le_of_eq (List.mem_singleton.mp ho ▸ rfl)
  · simp only [List.map_append, List.map_cons, List.map_nil, List.reverse_append,
      List.reverse_cons, List.reverse_nil, List.nil_append, List.cons_append, hout', waiting,
      Tree.program, List.append_assoc]

/-! ## Phrases -/

/-- How tightly a phrase binds: like the operators it may leave on the stack. -/
def Phrase.strength : Phrase → Nat
  | sum => 1
  | product => 2
  | factor => 3

/-- What spells a tree is cut into lexemes that are read as the tree. -/
theorem exists_lexes_readsAs {phrase : Phrase} {t : Tree} {cs : List Char}
    (h : Spells phrase t cs) : ∃ ls, Lexes cs ls ∧ ReadsAs phrase.strength t ls := by
  induction h with
  | digits hds hv => exact ⟨_, .numeral hds hv, .literal _ _⟩
  | @parentheses t cs _ ih =>
    obtain ⟨ls, hlexes, hreads⟩ := ih
    have hclosing : Lexes [')'] [.closing] := Lexes.nil.cons rfl rfl fun _ => rfl
    have hinner := hlexes.append hclosing (by simp [StartsWithoutDigit])
    exact ⟨.opening :: (ls ++ [.closing]), hinner.cons rfl rfl fun _ => rfl,
      hreads.parentheses _⟩
  | factor _ ih =>
    obtain ⟨ls, hlexes, hreads⟩ := ih
    exact ⟨ls, hlexes, hreads.mono (by decide)⟩
  | product _ ih =>
    obtain ⟨ls, hlexes, hreads⟩ := ih
    exact ⟨ls, hlexes, hreads.mono (by decide)⟩
  | @multiplied op left right cs ds hop _ _ ih ih' =>
    obtain ⟨ls, hlexes, hreads⟩ := ih
    obtain ⟨ms, hlexes', hreads'⟩ := ih'
    refine ⟨ls ++ .operator op :: ms, hlexes.append (hlexes'.symbol op) ?_, ?_⟩
    · cases op <;> simp [StartsWithoutDigit, Operator.symbol]
    · rcases hop with rfl | rfl <;> exact ReadsAs.node rfl hreads hreads'
  | @added op left right cs ds hop _ _ ih ih' =>
    obtain ⟨ls, hlexes, hreads⟩ := ih
    obtain ⟨ms, hlexes', hreads'⟩ := ih'
    refine ⟨ls ++ .operator op :: ms, hlexes.append (hlexes'.symbol op) ?_, ?_⟩
    · cases op <;> simp [StartsWithoutDigit, Operator.symbol]
    · rcases hop with rfl | rfl <;> exact ReadsAs.node rfl hreads hreads'
  | spaced hbefore hbehind _ ih =>
    obtain ⟨ls, hlexes, hreads⟩ := ih
    have hspacing := Lexes.nil.spaced hbehind
    rw [List.append_nil] at hspacing
    have hall := (hlexes.spaced hbefore).append hspacing (startsWithoutDigit_of_spacing hbehind)
    exact ⟨ls, by simpa using hall, hreads⟩

/-- A tree's program is never empty. -/
theorem program_ne_nil (t : Tree) : t.program ≠ [] := by
  cases t <;> simp [Tree.program]

/-- A sentence is compiled to the program of the tree that it spells. -/
theorem compile_of_spells {t : Tree} {text : String} (h : Spells .sum t text.toList) :
    compile text = .ok t.program := by
  obtain ⟨ls, hlexes, hreads⟩ := exists_lexes_readsAs h
  obtain ⟨position, hcut⟩ := hlexes 0 [] (by simp [StartsWithoutDigit])
  obtain ⟨ops, out, hread, _, hout⟩ := hreads {} (by simp [Admits])
  have hlexemes : lexemes 0 text.toList = ls := by simpa [lexemes] using hcut
  have hdrain : State.drain out (ops.map .operator ++ []) = .ok t.program.reverse := by
    rw [List.append_nil, drain_operators, hout, List.append_nil]
  rw [compile, hlexemes, hread]
  simp only [State.finish, hdrain]
  cases hreverse : t.program.reverse with
  | nil => exact absurd (List.reverse_eq_nil_iff.mp hreverse) (program_ne_nil t)
  | cons token rest => simp [← hreverse]

end Piecework.Infix
