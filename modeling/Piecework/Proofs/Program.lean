import Piecework.Program.Value
import Piecework.Task

/-!
# Running a program

A program can be run part by part, its value depends on the results of its own
placeholders only, and substituting a result is the same as looking it up. Only
postfix programs have a value; the converse fails, since operations may have no
answer.
-/

namespace Piecework.Program

variable {answer : Answering} {results results' : TaskId → Option Int64}

/-! ## Operands -/

/-- Operands are counted through the first part and then through the second. -/
theorem operands?_append (n : Nat) (p q : Program) :
    operands? n (p ++ q) = (operands? n p).bind (operands? · q) := by
  induction p generalizing n with
  | nil => rfl
  | cons t p ih =>
    cases t with
    | number v => exact ih _
    | task id => exact ih _
    | operator op =>
      simp only [List.cons_append, operands?]
      split
      · rfl
      · exact ih _

/-- A stack that survives a program has the height that the operand count gives. -/
theorem operands?_of_stackBy? {s s' : List Int64} {p : Program}
    (h : stackBy? answer results s p = some s') : operands? s.length p = some s'.length := by
  induction p generalizing s with
  | nil =>
    obtain rfl := Option.some.inj h
    rfl
  | cons t p ih =>
    cases t with
    | number v => exact ih h
    | task id =>
      simp only [stackBy?] at h
      split at h
      · exact ih h
      · contradiction
    | operator op =>
      match s, h with
      | b :: a :: s, h =>
        simp only [stackBy?] at h
        split at h
        · next v hv =>
          rw [← ih h, operands?, if_neg (by simp)]
          rfl
        · contradiction

/-! ## Values -/

/-- A program is run by running the first part and then the second. -/
theorem stackBy?_append (s : List Int64) (p q : Program) :
    stackBy? answer results s (p ++ q) =
      (stackBy? answer results s p).bind (stackBy? answer results · q) := by
  induction p generalizing s with
  | nil => rfl
  | cons t p ih =>
    cases t with
    | number v => exact ih _
    | task id =>
      simp only [List.cons_append, stackBy?]
      split
      · exact ih _
      · rfl
    | operator op =>
      match s with
      | [] => rfl
      | [_] => rfl
      | b :: a :: s =>
        simp only [List.cons_append, stackBy?]
        split
        · exact ih _
        · rfl

/-- A value is the only thing left on the stack. -/
theorem valueBy?_eq_some_iff {p : Program} {v : Int64} :
    valueBy? answer results p = some v ↔ stackBy? answer results [] p = some [v] := by
  unfold valueBy?
  split
  · next w hw => simp [hw]
  · next hne =>
    refine ⟨fun h => absurd h (by simp), fun h => absurd h (hne v)⟩

/-- Two programs that leave the same stack have the same value. -/
theorem valueBy?_eq_of_stackBy?_eq {p q : Program}
    (h : stackBy? answer results [] p = stackBy? answer results' [] q) :
    valueBy? answer results p = valueBy? answer results' q := by
  unfold valueBy?
  rw [h]

/-- A program whose run breaks off has no value. -/
theorem valueBy?_eq_none_of_stackBy? {p : Program} (h : stackBy? answer results [] p = none) :
    valueBy? answer results p = none := by
  unfold valueBy?
  rw [h]

/-- Only postfix programs have a value. -/
theorem isPostfix_of_valueBy? {p : Program} {v : Int64}
    (h : valueBy? answer results p = some v) : p.IsPostfix :=
  operands?_of_stackBy? (valueBy?_eq_some_iff.mp h)

/-! ## Placeholders -/

/-- The placeholders of two parts are those of the whole. -/
@[simp] theorem tasks_append (p q : Program) : tasks (p ++ q) = tasks p ++ tasks q :=
  List.filterMap_append

@[simp] theorem tasks_nil : tasks [] = [] := rfl

@[simp] theorem tasks_number (v : Int64) (p : Program) : tasks (.number v :: p) = tasks p := rfl

@[simp] theorem tasks_operator (op : Operator) (p : Program) :
    tasks (.operator op :: p) = tasks p := rfl

@[simp] theorem tasks_task (id : TaskId) (p : Program) : tasks (.task id :: p) = id :: tasks p := rfl

/-- The listed placeholders are those that occur. -/
theorem mem_tasks_iff {p : Program} {id : TaskId} : id ∈ p.tasks ↔ .task id ∈ p := by
  induction p with
  | nil => simp
  | cons t p ih => cases t <;> simp [ih]

/-- A program mentions the tasks that it waits for. -/
theorem mentions_iff {p : Program} {id : TaskId} : p.mentions id = true ↔ id ∈ p.tasks := by
  rw [mem_tasks_iff, mentions, List.contains_iff_mem]

/-- Only the results of the program's own placeholders matter. -/
theorem stackBy?_congr {p : Program} (h : ∀ id ∈ p.tasks, results id = results' id)
    (s : List Int64) : stackBy? answer results s p = stackBy? answer results' s p := by
  induction p generalizing s with
  | nil => rfl
  | cons t p ih =>
    cases t with
    | number v => exact ih h _
    | task id =>
      have hid : results id = results' id := h id List.mem_cons_self
      have hp : ∀ i ∈ tasks p, results i = results' i := fun i hi => h i (List.mem_cons_of_mem _ hi)
      simp only [stackBy?, hid, ih hp]
    | operator op =>
      match s with
      | [] => rfl
      | [_] => rfl
      | b :: a :: s => simp only [stackBy?, ih h]

/-- A placeholder without a result breaks off the run. -/
theorem stackBy?_eq_none_of_task {p : Program} {id : TaskId} (hid : id ∈ p.tasks)
    (h : results id = none) (s : List Int64) : stackBy? answer results s p = none := by
  obtain ⟨before, behind, rfl⟩ := List.append_of_mem (mem_tasks_iff.mp hid)
  rw [stackBy?_append]
  cases stackBy? answer results s before with
  | none => rfl
  | some s' => simp [stackBy?, h]

/-! ## Substitution -/

@[simp] theorem substitute_nil (id : TaskId) (v : Int64) : substitute id v [] = [] := rfl

/-- Substitution goes token by token. -/
theorem substitute_cons (id : TaskId) (v : Int64) (t : Token) (p : Program) :
    substitute id v (t :: p) = (if t = .task id then .number v else t) :: substitute id v p := rfl

/-- A substituted placeholder is gone, and the others stay in order. -/
theorem tasks_substitute (id : TaskId) (v : Int64) (p : Program) :
    (p.substitute id v).tasks = p.tasks.filter (· ≠ id) := by
  induction p with
  | nil => rfl
  | cons t p ih =>
    cases t with
    | number w => exact ih
    | operator op => exact ih
    | task i =>
      by_cases hi : i = id <;> simp [substitute_cons, hi, ih]

/-- Substitution keeps the operand count. -/
theorem operands?_substitute (id : TaskId) (v : Int64) (n : Nat) (p : Program) :
    operands? n (p.substitute id v) = operands? n p := by
  induction p generalizing n with
  | nil => rfl
  | cons t p ih =>
    cases t with
    | number w => exact ih _
    | operator op => simp only [substitute_cons, reduceCtorEq, if_false, operands?, ih]
    | task i => by_cases hi : i = id <;> simp [substitute_cons, hi, operands?, ih]

/-- Substitution keeps the operators. -/
theorem operatorCount_substitute (id : TaskId) (v : Int64) (p : Program) :
    (p.substitute id v).operatorCount = p.operatorCount := by
  induction p with
  | nil => rfl
  | cons t p ih =>
    unfold operatorCount at ih ⊢
    cases t with
    | number w => exact ih
    | operator op => simpa [substitute_cons] using ih
    | task i => by_cases hi : i = id <;> simpa [substitute_cons, hi] using ih

/-- Substituting a task's result is the same as looking it up. -/
theorem stackBy?_substitute {id : TaskId} {v : Int64} (h : results id = some v)
    (s : List Int64) (p : Program) :
    stackBy? answer results s (p.substitute id v) = stackBy? answer results s p := by
  induction p generalizing s with
  | nil => rfl
  | cons t p ih =>
    cases t with
    | number w => exact ih _
    | task i =>
      by_cases hi : i = id
      · subst hi
        simp [substitute_cons, stackBy?, h, ih]
      · simp [substitute_cons, stackBy?, hi, ih]
    | operator op =>
      match s with
      | [] => rfl
      | [_] => rfl
      | b :: a :: s => simp [substitute_cons, stackBy?, ih]

/-- A program that waited for a substituted task is no placeholder alone. -/
theorem substitute_ne_task {p : Program} {id : TaskId} (h : id ∈ p.tasks) (v : Int64)
    (other : TaskId) : p.substitute id v ≠ [.task other] := by
  intro heq
  obtain ⟨t, rfl⟩ : ∃ t, p = [t] := List.length_eq_one_iff.mp (by
    rw [← List.length_map, ← substitute, heq]
    rfl)
  obtain rfl : Token.task id = t := by simpa using mem_tasks_iff.mp h
  simp [substitute] at heq

end Piecework.Program
