import Piecework.Proofs.Program

/-!
# Cutting tasks out of a program

Replacing an operator on two known values by the placeholder of a task keeps the
number of operands, and keeps the value once the task's answer is put down for
its placeholder. The laws are about one cut at any place and about any row of
cuts, so they do not depend on the order in which a pass makes them.
-/

namespace Piecework.Program

variable {answer : Answering} {results : TaskId → Option Int64}

/-- The placeholder of a task stands where its operator and operands were. -/
inductive Cut (t : Task) : Program → Program → Prop where
  | at (before behind : Program) :
      Cut t (before ++ .number t.left :: .number t.right :: .operator t.operator :: behind)
        (before ++ .task t.id :: behind)

/-- The tasks of a row are cut out one after the other. -/
inductive Cuts : List Task → Program → Program → Prop where
  | nil (p : Program) : Cuts [] p p
  | cons {t : Task} {ts : List Task} {p q r : Program} :
      Cut t p q → Cuts ts q r → Cuts (t :: ts) p r

/-! ## What one cut keeps -/

/-- A placeholder counts as one operand, like the operation it stands for. -/
theorem Cut.operands?_eq {t : Task} {p q : Program} (h : Cut t p q) (n : Nat) :
    operands? n p = operands? n q := by
  obtain ⟨before, behind⟩ := h
  simp only [operands?_append]
  congr 1

/-- A cut removes one operator. -/
theorem Cut.operatorCount_eq {t : Task} {p q : Program} (h : Cut t p q) :
    p.operatorCount = q.operatorCount + 1 := by
  obtain ⟨before, behind⟩ := h
  simp [operatorCount, List.countP_append]
  omega

/-- A cut makes a program shorter by two. -/
theorem Cut.length_eq {t : Task} {p q : Program} (h : Cut t p q) : p.length = q.length + 2 := by
  obtain ⟨before, behind⟩ := h
  simp only [List.length_append, List.length_cons]
  omega

/-- A cut adds one placeholder and keeps the others. -/
theorem Cut.tasks_perm {t : Task} {p q : Program} (h : Cut t p q) :
    q.tasks.Perm (t.id :: p.tasks) := by
  obtain ⟨before, behind⟩ := h
  simp only [tasks_append, tasks_number, tasks_operator, tasks_task]
  exact List.perm_middle

/-- A cut keeps the stack when the placeholder has the answer of its operation. -/
theorem Cut.stackBy?_eq {t : Task} {p q : Program} (h : Cut t p q)
    (hanswer : results t.id = answer t.operator t.left t.right) (s : List Int64) :
    stackBy? answer results s p = stackBy? answer results s q := by
  obtain ⟨before, behind⟩ := h
  simp only [stackBy?_append]
  congr 1
  funext s'
  simp [stackBy?, hanswer]

/-! ## What a row of cuts keeps -/

/-- Cutting goes on where it stopped. -/
theorem Cuts.trans {ts us : List Task} {p q r : Program} (h : Cuts ts p q) (h' : Cuts us q r) :
    Cuts (ts ++ us) p r := by
  induction h with
  | nil p => exact h'
  | cons hcut _ ih => exact .cons hcut (ih h')

/-- Cutting keeps the operand count. -/
theorem Cuts.operands?_eq {ts : List Task} {p q : Program} (h : Cuts ts p q) (n : Nat) :
    operands? n p = operands? n q := by
  induction h with
  | nil p => rfl
  | cons hcut _ ih => exact (hcut.operands?_eq n).trans ih

/-- Each cut task accounts for one operator. -/
theorem Cuts.operatorCount_eq {ts : List Task} {p q : Program} (h : Cuts ts p q) :
    p.operatorCount = q.operatorCount + ts.length := by
  induction h with
  | nil p => rfl
  | cons hcut _ ih => rw [hcut.operatorCount_eq, ih, List.length_cons, Nat.add_assoc]

/-- Each cut task accounts for two tokens. -/
theorem Cuts.length_eq {ts : List Task} {p q : Program} (h : Cuts ts p q) :
    p.length = q.length + 2 * ts.length := by
  induction h with
  | nil p => rfl
  | cons hcut _ ih =>
    rw [hcut.length_eq, ih, List.length_cons]
    omega

/-- The placeholders are those from before and those of the cut tasks. -/
theorem Cuts.tasks_perm {ts : List Task} {p q : Program} (h : Cuts ts p q) :
    q.tasks.Perm (ts.map (·.id) ++ p.tasks) := by
  induction h with
  | nil p => exact List.Perm.refl _
  | cons hcut _ ih =>
    apply ih.trans
    exact (hcut.tasks_perm.append_left _).trans List.perm_middle

/-- Cutting keeps the stack when every new placeholder has the answer of its operation. -/
theorem Cuts.stackBy?_eq {ts : List Task} {p q : Program} (h : Cuts ts p q)
    (hanswer : ∀ t ∈ ts, results t.id = answer t.operator t.left t.right) (s : List Int64) :
    stackBy? answer results s p = stackBy? answer results s q := by
  induction h with
  | nil p => rfl
  | cons hcut _ ih =>
    rw [hcut.stackBy?_eq (hanswer _ List.mem_cons_self) s]
    exact ih fun t ht => hanswer t (List.mem_cons_of_mem _ ht)

/-- A program with a division of known values by zero has no value, when such divisions have no
answer. -/
theorem stackBy?_eq_none_of_division (hanswer : ∀ a, answer .div a 0 = none) (s : List Int64)
    (before behind : Program) (a : Int64) :
    stackBy? answer results s
      (before ++ .number a :: .number 0 :: .operator .div :: behind) = none := by
  rw [stackBy?_append]
  cases stackBy? answer results s before with
  | none => rfl
  | some s' => simp [stackBy?, hanswer]

/-! ## Windows -/

/-- One more token makes no window unless it is an operator after two known values. -/
theorem isWindowless_reverse_cons {t : Token} {written : List Token}
    (h : IsWindowless written.reverse)
    (ht : ∀ a b op rest, t = .operator op → written ≠ .number b :: .number a :: rest) :
    IsWindowless (t :: written).reverse := by
  intro a b op hwindow
  rw [List.reverse_cons, List.infix_concat_iff] at hwindow
  rcases hwindow with hend | hinside
  · rw [← List.reverse_prefix] at hend
    simp only [List.reverse_append, List.reverse_cons, List.reverse_nil, List.nil_append,
      List.cons_append, List.reverse_reverse] at hend
    obtain ⟨hhead, htail⟩ := List.cons_prefix_cons.mp hend
    obtain ⟨rest, rfl⟩ := htail
    exact ht a b op rest hhead.symm rfl
  · exact h a b op hinside

/-- Part of a windowless program is windowless. -/
theorem IsWindowless.of_infix {p q : Program} (h : IsWindowless q) (hp : p <:+: q) :
    IsWindowless p := fun a b op hwindow => h a b op (hwindow.trans hp)

/-- Without placeholders and windows, no operator ever has two operands. -/
theorem length_eq_of_isWindowless {p : Program} (values : List Int64) {n : Nat}
    (hwindow : IsWindowless (values.map .number ++ p)) (hfree : p.tasks = [])
    (h : operands? values.length p = some n) : n = values.length + p.length := by
  induction p generalizing values with
  | nil => exact (Option.some.inj h).symm
  | cons t p ih =>
    cases t with
    | number v =>
      have hlength : (values ++ [v]).length = values.length + 1 := List.length_append
      have hnext := ih (values ++ [v]) (by simpa using hwindow) hfree (by rw [hlength]; exact h)
      rw [hnext, hlength, List.length_cons]
      omega
    | task id => simp at hfree
    | operator op =>
      by_cases htwo : values.length < 2
      · simp [operands?, htwo] at h
      · have hheight : values.reverse.length = values.length := List.length_reverse
        rcases hlast : values.reverse with _ | ⟨b, _ | ⟨a, earlier⟩⟩
        · rw [hlast, List.length_nil] at hheight
          omega
        · rw [hlast, List.length_singleton] at hheight
          omega
        · have hvalues : values = earlier.reverse ++ [a, b] := by
            simpa using congrArg List.reverse hlast
          refine absurd ?_ (hwindow a b op)
          exact ⟨earlier.reverse.map .number, p, by simp [hvalues]⟩

/-- A postfix program of several tokens without windows waits for some task. -/
theorem tasks_ne_nil_of_isWindowless {p : Program} (hpost : p.IsPostfix)
    (hwindow : p.IsWindowless) (hlength : 2 ≤ p.length) : p.tasks ≠ [] := by
  intro hfree
  have hone := length_eq_of_isWindowless [] hwindow hfree hpost
  simp only [List.length_nil] at hone
  omega

end Piecework.Program
