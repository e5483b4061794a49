import Piecework.Proofs.Infix.Output

/-!
# Programs as trees

A postfix program without placeholders is the post-order of exactly one tree. The tree
is put together on a stack, in the same way as a program is run, and writing out what
lies on the stack gives the program back at every point.
-/

namespace Piecework.Infix.Tree

/-- The trees that a program puts together on a stack of trees. -/
def assemble? : List Tree → Program → Option (List Tree)
  | s, [] => some s
  | s, .number v :: p => assemble? (literal v :: s) p
  | right :: left :: s, .operator op :: p => assemble? (node op left right :: s) p
  | _, _ => none

/-- The program of a tree puts the tree on the stack. -/
theorem assemble?_program (t : Tree) (s : List Tree) (p : Program) :
    assemble? s (t.program ++ p) = assemble? (t :: s) p := by
  induction t generalizing s p with
  | literal v => rfl
  | node op left right ihleft ihright =>
    simp only [program, List.append_assoc, ihleft, ihright]
    rfl

/-- Trees with the same program are the same. -/
theorem program_injective {t t' : Tree} (h : t.program = t'.program) : t = t' := by
  have hstack (t : Tree) : assemble? [] t.program = some [t] := by
    simpa [assemble?] using assemble?_program t [] []
  have heq := (hstack t).symm.trans (h ▸ hstack t')
  simpa using heq

/-- A stack of trees written out from the bottom. -/
def written (s : List Tree) : Program := s.reverse.flatMap program

/-- What is put together is the program that was read. -/
theorem written_of_assemble? {s s' : List Tree} {p : Program} (h : assemble? s p = some s') :
    written s' = written s ++ p := by
  fun_induction assemble? s p with
  | case1 s =>
    obtain rfl := Option.some.inj h
    exact (List.append_nil _).symm
  | case2 s v p ih =>
    rw [ih h]
    simp [written, program]
  | case3 right left s op p ih =>
    rw [ih h]
    simp [written, program]
  | case4 => contradiction

/-- Trees are put together as long as there are operands, and no placeholders. -/
theorem map_length_assemble? {s : List Tree} {p : Program} (h : p.tasks = []) :
    (assemble? s p).map List.length = Program.operands? s.length p := by
  induction p generalizing s with
  | nil => rfl
  | cons token p ih =>
    cases token with
    | number v => exact ih h
    | task id => contradiction
    | operator op =>
      match s with
      | [] | [_] => rfl
      | right :: left :: s =>
        rw [Program.operands?, if_neg (by simp)]
        exact ih h

/-- The program of a tree waits for no task. -/
theorem tasks_program (t : Tree) : t.program.tasks = [] := by
  induction t with
  | literal v => rfl
  | node op left right ihleft ihright => simp [program, ihleft, ihright]

/-- The programs of trees are the postfix programs without placeholders. -/
theorem exists_program_eq_iff {p : Program} :
    (∃ t : Tree, t.program = p) ↔ p.IsPostfix ∧ p.tasks = [] := by
  constructor
  · rintro ⟨t, rfl⟩
    exact ⟨operands?_program t 0, tasks_program t⟩
  · rintro ⟨hpost, htasks⟩
    have hlength : (assemble? [] p).map List.length = some 1 :=
      (map_length_assemble? htasks).trans hpost
    obtain ⟨s, hs, hone⟩ := Option.map_eq_some_iff.mp hlength
    obtain ⟨t, rfl⟩ := List.length_eq_one_iff.mp hone
    exact ⟨t, by simpa [written] using written_of_assemble? hs⟩

/-- The literals of a tree are the numbers of its program. -/
theorem isUnsigned_iff {t : Tree} :
    t.IsUnsigned ↔ ∀ v, .number v ∈ t.program → 0 ≤ v.toInt := by
  induction t with
  | literal v => simp [IsUnsigned, program]
  | node op left right ihleft ihright =>
    simp only [IsUnsigned, ihleft, ihright, program, List.mem_append, List.mem_singleton,
      reduceCtorEq, or_false, or_imp, forall_and]

end Piecework.Infix.Tree
