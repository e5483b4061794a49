import Mathlib.Data.List.Nodup
import Piecework.Proofs.PassOutcome

/-!
# A pass keeps the value of a program

The value of a program depends on the results of the tasks that it waits for. A pass creates
further tasks, and once their answers are put down under numbers that were not in use, the program
that it leaves has the value of the program that it was given. A pass that ends a program says what
its value is, or that it has none.
-/

namespace Piecework

/-- An assignment of results with the answers to a row of tasks put in its place. -/
def Answering.put (answer : Answering) (ts : List Task) (results : TaskId → Option Int64)
    (id : TaskId) : Option Int64 :=
  match ts.find? (·.id = id) with
  | some t => answer t.operator t.left t.right
  | none => results id

/-- Tasks with different numbers all have their answers put in. -/
theorem Answering.put_of_mem (answer : Answering) {ts : List Task}
    (results : TaskId → Option Int64) (hnodup : (ts.map (·.id)).Nodup) {t : Task} (ht : t ∈ ts) :
    answer.put ts results t.id = answer t.operator t.left t.right := by
  unfold put
  cases hfind : ts.find? (·.id = t.id) with
  | none => simpa using List.find?_eq_none.mp hfind t ht
  | some u =>
    have hid : u.id = t.id := by simpa using List.find?_some hfind
    rw [List.inj_on_of_nodup_map hnodup (List.mem_of_find?_eq_some hfind) ht hid]

/-- Other results stay as they were. -/
theorem Answering.put_of_not_mem (answer : Answering) {ts : List Task}
    (results : TaskId → Option Int64) {id : TaskId} (h : ∀ t ∈ ts, t.id ≠ id) :
    answer.put ts results id = results id := by
  have hfind : ts.find? (·.id = id) = none := List.find?_eq_none.mpr (by simpa using h)
  rw [put, hfind]

namespace Program

variable {σ : Type}

/-- Cutting out tasks keeps the value of a program, with their answers put in under numbers that the
program did not wait for. -/
theorem Cuts.valueBy?_eq {answer : Answering} {ts : List Task} {p q : Program} (h : Cuts ts p q)
    (hnodup : (ts.map (·.id)).Nodup) (hnew : ∀ t ∈ ts, t.id ∉ p.tasks)
    (results : TaskId → Option Int64) :
    q.valueBy? answer (answer.put ts results) = p.valueBy? answer results := by
  refine valueBy?_eq_of_stackBy?_eq ?_
  have hcut := h.stackBy?_eq (fun t ht => answer.put_of_mem results hnodup ht) []
  have hold : stackBy? answer results [] p = stackBy? answer (answer.put ts results) [] p :=
    stackBy?_congr (fun id hid => Eq.symm (answer.put_of_not_mem results fun t ht heq =>
      hnew t ht (heq ▸ hid))) []
  exact (hold.trans hcut).symm

/-- A program that divides a known value by a known zero has no value. -/
theorem DividesByZero.value?_eq_none {p : Program} (h : p.DividesByZero)
    (results : TaskId → Option Int64) : p.value? results = none := by
  obtain ⟨before, a, behind, rfl, -⟩ := h
  exact valueBy?_eq_none_of_stackBy? (stackBy?_eq_none_of_division (fun a => rfl) [] before behind a)

/-- A pass keeps the value of a program, whatever the results of the tasks that the program waits
for. While work is pending, the new program has the old value once the exact results of the created
tasks are put in, provided that the sink numbered them apart and with numbers that the program did
not use. A completed program has the value that the pass tells, and a program that fails by a
division by zero, postfix or not, has none. -/
theorem reduce_keeps_value (sink : Sink σ) (costs : Costs) (expression : ExpressionId) (p : Program)
    (s : σ) (results : TaskId → Option Int64) :
    let r := (p.reduce sink costs expression s).1
    let created := p.created sink costs expression s
    (r.outcome = .pending → (created.map (·.id)).Nodup → (∀ t ∈ created, t.id ∉ p.tasks) →
        r.program.value? (Answering.put Operator.apply created results) = p.value? results) ∧
      (∀ v, r.outcome = .completed v → p.value? results = some v) ∧
      (r.outcome = .failed .divisionByZero → p.value? results = none) := by
  intro r created
  obtain ⟨-, hreduces⟩ := reduces_created sink costs expression p s
  refine ⟨fun hpending hnodup hnew => ?_, fun v hv => ?_, fun hzero => ?_⟩
  · obtain ⟨-, -, hcuts, -⟩ := hreduces.of_pending hpending
    exact hcuts.valueBy?_eq hnodup hnew results
  · rcases outcome_cases sink costs expression p s with ⟨w, rfl, hr⟩ | ⟨_, hr⟩ | ⟨_, hr⟩ | ⟨_, hr⟩
    · obtain rfl : v = w := Outcome.completed.inj (hv.symm.trans hr)
      rfl
    all_goals exact absurd (hv.symm.trans hr) (by simp)
  · rcases outcome_cases sink costs expression p s with ⟨_, _, hr⟩ | ⟨hp, _⟩ | ⟨_, hr⟩ | ⟨_, hr⟩
    · exact absurd (hzero.symm.trans hr) (by simp)
    · exact hp.value?_eq_none results
    all_goals exact absurd (hzero.symm.trans hr) (by simp)

/-- The placeholder of this program stays, two tasks are created beside it, and the program that is
left has the value of the first one. A division by a known zero has no value. -/
theorem reduce_keeps_value_around_placeholder :
    let sink : Sink Nat := ⟨fun _ n => (n + 1, n + 1)⟩
    let p : Program := [.number 1, .number 2, .operator .add, .task 9, .number 3, .number 4,
      .operator .mul, .operator .sub, .operator .div]
    let results : TaskId → Option Int64 := fun id => if id = 9 then some 11 else none
    let r := (p.reduce sink {} 7 0).1
    let created := p.created sink {} 7 0
    (created.map (·.id)).Nodup ∧ (∀ t ∈ created, t.id ∉ p.tasks) ∧ r.outcome = .pending ∧
      p.value? results = some (-3) ∧
      r.program.value? (Answering.put Operator.apply created results) = some (-3) ∧
      value? results [.task 9, .number 5, .number 0, .operator .div, .operator .add] = none := by
  intro sink p results r created
  have hpending : r.outcome = .pending := by decide
  have hnodup : (created.map (·.id)).Nodup := by decide
  have hnew : ∀ t ∈ created, t.id ∉ p.tasks := by decide
  have hvalue : p.value? results = some (-3) := by decide
  obtain ⟨hkept, -, -⟩ := reduce_keeps_value sink {} 7 p 0 results
  obtain ⟨-, -, hnone⟩ := reduce_keeps_value sink {} 7
    [.task 9, .number 5, .number 0, .operator .div, .operator .add] 0 results
  exact ⟨hnodup, hnew, hpending, hvalue, (hkept hpending hnodup hnew).trans hvalue,
    hnone (by decide)⟩

end Program

end Piecework
