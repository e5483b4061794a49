import Piecework.Proofs.Reachable

/-!
# Operators and tasks

As long as an expression has not failed, the tasks created for it and the
operators left in its program add up to the operators that it started with,
whatever the reports say.
-/

namespace Piecework

namespace Share

/-- With `n` tasks created so far, tasks and remaining operators of an expression that has not
failed make up `total`. -/
def Counts (total n : Nat) (s : Share) : Prop :=
  match s.expression with
  | none => False
  | some e => (∀ reason, e.status ≠ .failed reason) → n + e.program.operatorCount = total

variable {total n : Nat}

/-- The sum of an expression that has not failed. -/
theorem Counts.add_eq {s : Share} (h : s.Counts total n) {e : Expression}
    (he : s.expression = some e) (hlive : ∀ reason, e.status ≠ .failed reason) :
    n + e.program.operatorCount = total := by
  simp only [Counts, he] at h
  exact h hlive

/-- An open expression counts its operators. -/
theorem Counts.add_eq_of_open {s : Share} (h : s.Counts total n) {e : Expression}
    (he : s.expression = some e) (hopen : e.isFinal = false) :
    n + e.program.operatorCount = total :=
  h.add_eq he (by simp [Expression.isFinal_eq_false_iff.mp hopen])

/-- The sum does not depend on the queue. -/
theorem Counts.of_expression_eq {s s' : Share} (h : s.Counts total n)
    (hexpression : s'.expression = s.expression) : s'.Counts total n := by
  unfold Counts
  rw [hexpression]
  exact h

/-- There is nothing to count in an expression that fails. -/
theorem counts_fail_of_open {e : Expression} (hopen : e.isFinal = false) (reason : String)
    (es : List Entry) : (Share.fail reason ⟨some e, es⟩).Counts total n := by
  rw [fail_of_open hopen]
  exact fun hlive => absurd rfl (hlive reason)

/-- Failing keeps the sum of an expression that had finished before. -/
theorem Counts.fail {s : Share} (h : s.Counts total n) (reason : String) :
    (s.fail reason).Counts total n := by
  obtain ⟨_ | e, es⟩ := s
  · exact h.elim
  · cases hfinal : e.isFinal with
    | true =>
      exact h.of_expression_eq (fail_expression_of_isFinal rfl hfinal reason)
    | false => exact counts_fail_of_open hfinal reason es

/-- A pass turns one operator into one task each time. -/
theorem Passes.counts {e : Expression} {es : List Entry} {created : List Task} {s' : Share}
    (h : Passes e.program ⟨some e, es⟩ created s') (hopen : e.isFinal = false)
    (hcount : n + e.program.operatorCount = total) : s'.Counts total (n + created.length) := by
  cases h with
  | pending _ _ hcuts _ =>
    rw [hcuts.operatorCount_eq] at hcount
    simp only [Counts, Option.map_some, Expression.advance_of_open hopen]
    intro _
    omega
  | completed hp =>
    simpa [Counts, Expression.complete, Expression.settle_of_open hopen] using hcount
  | divided _ => exact counts_fail_of_open hopen _ es
  | malformed _ => exact counts_fail_of_open hopen _ es

end Share

namespace Moment

variable {m : Moment} {x : ExpressionId} {total n : Nat}

/-- Every change keeps the sum, with the tasks that it creates added to the count. -/
theorem Change.counts {ev : Event} {s s' : Share} {created : List Task}
    (h : m.Change x ev s created s') (hs : s.Counts total n) :
    s'.Counts total (n + created.length) := by
  cases h with
  | unchanged => exact hs
  | submitted _ _ _ => exact hs.elim
  | claimed _ _ _ => exact hs.of_expression_eq rfl
  | timedOut _ => exact hs.fail _
  | refused _ _ _ _ => exact hs.fail _
  | @resumed r t e _ _ _ _ _ _ _ he hopen _ hpasses =>
    apply hpasses.counts (e := e.substitute t.id r.result) hopen
    rw [← hs.add_eq_of_open he hopen]
    exact congrArg (n + ·) (Program.operatorCount_substitute t.id r.result e.program)
  | @unmentioned r t e _ _ _ _ hopen _ =>
    exact Share.counts_fail_of_open (e := e.substitute t.id r.result) hopen _ []
  | ignored _ _ _ _ => exact hs.of_expression_eq rfl

/-- The tasks of a run are those of its first event and those of the rest. -/
theorem createdAll_cons (x : ExpressionId) (m : Moment) (ev : Event) (es : List Event) :
    m.createdAll x (ev :: es) = m.created x ev + (m.step ev).2.createdAll x es := by
  simp [createdAll, trace]

/-- A run keeps the sum. -/
theorem counts_after (hm : m.broker.IsConsistent) (hcounts : (m.broker.share x).Counts total n)
    (es : List Event) :
    ((m.after es).broker.share x).Counts total (n + m.createdAll x es) := by
  induction es generalizing m n with
  | nil => exact hcounts
  | cons ev es ih =>
    obtain ⟨created, hchange, _, hcreated⟩ := exists_change hm.isOrdered ev x
    have hnext := ih (isConsistent_step hm ev) (hchange.counts hcounts)
    rwa [createdAll_cons, hcreated, ← Nat.add_assoc]

end Moment

end Piecework
