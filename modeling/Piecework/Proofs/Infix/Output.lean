import Piecework.Infix
import Piecework.Infix.Tree
import Piecework.Proofs.Infix.Lexemes
import Piecework.Proofs.Program

/-!
# Compiled programs

The program of a tree has the value of the tree. The operands of a compiled program,
whether its text spells a tree or not, are the literals of the text in their order,
so it waits for no task and has no negative number.
-/

namespace Piecework.Infix

/-! ## Trees -/

/-- Running a tree's program pushes the tree's value. -/
theorem stackBy?_program (results : TaskId → Option Int64) (t : Tree) (s : List Int64) :
    Program.stackBy? Operator.apply results s t.program = t.value?.map (· :: s) := by
  induction t generalizing s with
  | literal v => rfl
  | node op left right ihleft ihright =>
    simp only [Tree.program, Program.stackBy?_append, ihleft, Tree.value?]
    cases left.value? with
    | none => rfl
    | some a =>
      simp only [Option.map_some, Option.bind_some, ihright]
      cases right.value? with
      | none => rfl
      | some b => cases hop : op.apply a b <;> simp [Program.stackBy?, hop]

/-- The value of a tree's program is the value of the tree. -/
theorem value?_program (results : TaskId → Option Int64) (t : Tree) :
    t.program.value? results = t.value? := by
  unfold Program.value? Program.valueBy?
  rw [stackBy?_program]
  cases t.value? <;> rfl

/-- A tree's program is postfix. -/
theorem operands?_program (t : Tree) (n : Nat) :
    Program.operands? n t.program = some (n + 1) := by
  induction t generalizing n with
  | literal v => rfl
  | node op left right ihleft ihright =>
    simp [Tree.program, Program.operands?_append, ihleft, ihright, Program.operands?]

/-! ## Operands -/

/-- The tokens of a program other than its operators, in order. -/
def leaves (p : List Token) : List Token :=
  p.filter fun
    | .operator _ => false
    | _ => true

/-- A program waits for the placeholders among its leaves. -/
theorem tasks_leaves (p : Program) : Program.tasks (leaves p) = p.tasks := by
  induction p with
  | nil => rfl
  | cons t p ih => cases t <;> simpa [leaves] using ih

/-- A number of a program is one of its leaves. -/
theorem mem_leaves_of_number {v : Int64} {p : List Token} (h : .number v ∈ p) :
    .number v ∈ leaves p :=
  List.mem_filter.mpr ⟨h, rfl⟩

/-- Releasing operators emits no operand. -/
theorem leaves_release (op : Operator) (out : List Token) (stack : List Pending) :
    leaves (State.release op out stack).emitted = leaves out := by
  fun_induction State.release op out stack with
  | case1 out top rest _ ih => exact ih
  | case2 => rfl
  | case3 => rfl

/-- Closing a parenthesis emits no operand. -/
theorem leaves_close {out : List Token} {stack : List Pending} {s : State}
    (h : State.close out stack = .ok s) : leaves s.emitted = leaves out := by
  fun_induction State.close out stack with
  | case1 out top rest ih => exact ih h
  | case2 out rest =>
    obtain rfl := Except.ok.inj h
    rfl
  | case3 => contradiction

/-- Draining the stack emits no operand. -/
theorem leaves_drain {out out' : List Token} {stack : List Pending}
    (h : State.drain out stack = .ok out') : leaves out' = leaves out := by
  fun_induction State.drain out stack with
  | case1 out top rest ih => exact ih h
  | case2 => contradiction
  | case3 out =>
    obtain rfl := Except.ok.inj h
    rfl

/-- Reading a lexeme emits its literal, if it is one, and no other operand. -/
theorem leaves_read {s s' : State} {x : Lexeme} (h : s.read x = .ok s') :
    leaves s'.emitted = x.literal?.toList.map .number ++ leaves s.emitted := by
  cases x with
  | number v | opening =>
    obtain rfl := Except.ok.inj h
    rfl
  | operator op =>
    obtain rfl := Except.ok.inj h
    exact leaves_release op s.emitted s.stack
  | closing => exact leaves_close h
  | oversized ds | stray c position => contradiction

/-- Reading lexemes emits their literals in order, and no other operand. -/
theorem leaves_readAll {s s' : State} {xs : List Lexeme} (h : readAll s xs = .ok s') :
    leaves s'.emitted = ((xs.filterMap Lexeme.literal?).map .number).reverse ++ leaves s.emitted := by
  induction xs generalizing s with
  | nil =>
    obtain rfl := Except.ok.inj h
    rfl
  | cons x xs ih =>
    simp only [readAll] at h
    split at h
    · contradiction
    · next hread =>
      rw [ih h, leaves_read hread, List.filterMap_cons]
      cases x.literal? <;> simp

/-- The operands of a compiled program are the literals of its text, in order. -/
theorem leaves_of_compile {text : String} {p : Program} (h : compile text = .ok p) :
    leaves p = ((lexemes 0 text.toList).filterMap Lexeme.literal?).map .number := by
  unfold compile at h
  split at h
  · contradiction
  · next s hread =>
    have hs := leaves_readAll hread
    unfold State.finish at h
    split at h
    · contradiction
    · contradiction
    · next out _ hdrain =>
      obtain rfl := Except.ok.inj h
      rw [← leaves_drain hdrain, show leaves ([] : List Token) = [] from rfl, List.append_nil] at hs
      rw [leaves, List.filter_reverse]
      exact List.reverse_eq_iff.mpr hs

/-- A compiled program waits for no task. -/
theorem tasks_eq_nil_of_compile {text : String} {p : Program} (h : compile text = .ok p) :
    p.tasks = [] := by
  rw [← tasks_leaves, leaves_of_compile h, Program.tasks, List.filterMap_map,
    List.filterMap_eq_nil_iff]
  exact fun _ _ => rfl

/-- A compiled program has no negative number. -/
theorem toInt_nonneg_of_compile {text : String} {p : Program} (h : compile text = .ok p)
    {v : Int64} (hv : .number v ∈ p) : 0 ≤ v.toInt := by
  have hleaf := mem_leaves_of_number hv
  rw [leaves_of_compile h] at hleaf
  obtain ⟨w, hw, rfl⟩ : ∃ w ∈ (lexemes 0 text.toList).filterMap Lexeme.literal?, w = v := by
    simpa using hleaf
  obtain ⟨x, hx, hliteral⟩ := List.mem_filterMap.mp hw
  cases x with
  | number w' =>
    obtain rfl := Option.some.inj hliteral
    exact toInt_nonneg_of_mem_lexemes hx
  | _ => contradiction

end Piecework.Infix
