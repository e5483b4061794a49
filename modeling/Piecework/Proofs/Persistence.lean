import Piecework.Proofs.Reachable

/-!
# What an expression can become

An expression keeps its number, its owner and its text for good, and once it has
finished it stays as it is, program included. Substituting a result is the one change
that does not look at the status, so this rests on what an event can do to a share: no
event puts a result into an expression that has finished.
-/

namespace Piecework

/-- What may become of an expression: it keeps its number, its owner and its text, and once it has
finished it stays as it is. -/
structure Expression.ContinuesAs (e e' : Expression) : Prop where
  id_eq : e'.id = e.id
  owner_eq : e'.owner = e.owner
  text_eq : e'.text = e.text
  eq_of_isFinal : e.isFinal = true → e' = e

namespace Expression

variable {e e' e'' : Expression}

/-- An expression may stay as it is. -/
theorem ContinuesAs.refl (e : Expression) : e.ContinuesAs e := ⟨rfl, rfl, rfl, fun _ => rfl⟩

/-- An expression goes on from what it has become. -/
theorem ContinuesAs.trans (h : e.ContinuesAs e') (h' : e'.ContinuesAs e'') :
    e.ContinuesAs e'' := by
  refine ⟨h'.id_eq.trans h.id_eq, h'.owner_eq.trans h.owner_eq, h'.text_eq.trans h.text_eq, ?_⟩
  intro hfinal
  obtain rfl := h.eq_of_isFinal hfinal
  exact h'.eq_of_isFinal hfinal

/-- Taking a status is the end of an open expression and leaves a finished one. -/
theorem continuesAs_settle (s : Status) (e : Expression) : e.ContinuesAs (e.settle s) := by
  cases hfinal : e.isFinal with
  | true =>
    rw [settle_of_isFinal hfinal]
    exact .refl e
  | false =>
    rw [settle_of_open hfinal]
    exact ⟨rfl, rfl, rfl, fun h => absurd h (by simp [hfinal])⟩

/-- A pass advances an open expression and leaves a finished one. -/
theorem continuesAs_advance (p : Program) (e : Expression) : e.ContinuesAs (e.advance p) := by
  cases hfinal : e.isFinal with
  | true => exact ⟨by simp, by simp [advance, hfinal], by simp [advance, hfinal],
      fun _ => if_pos hfinal⟩
  | false =>
    rw [advance_of_open hfinal]
    exact ⟨rfl, rfl, rfl, fun h => absurd h (by simp [hfinal])⟩

/-- An open expression goes on with a result put in. -/
theorem continuesAs_substitute (hopen : e.isFinal = false) (id : TaskId) (v : Int64) :
    e.ContinuesAs (e.substitute id v) :=
  ⟨rfl, rfl, rfl, fun h => absurd h (by simp [hopen])⟩

end Expression

namespace Share

/-- A pass goes on with the expression that it was run for. -/
theorem Passes.exists_continues {p : Program} {e : Expression} {es : List Entry}
    {created : List Task} {s' : Share} (h : Passes p ⟨some e, es⟩ created s') :
    ∃ e', s'.expression = some e' ∧ e.ContinuesAs e' := by
  cases h with
  | @pending _ q _ _ _ _ => exact ⟨_, rfl, e.continuesAs_advance q⟩
  | completed _ => exact ⟨_, rfl, e.continuesAs_settle _⟩
  | divided _ => exact ⟨_, rfl, e.continuesAs_settle _⟩
  | malformed _ => exact ⟨_, rfl, e.continuesAs_settle _⟩

end Share

namespace Moment

variable {m : Moment} {x : ExpressionId}

/-- Every change goes on with the expression of its share. -/
theorem Change.exists_continues {ev : Event} {s s' : Share} {created : List Task}
    (h : m.Change x ev s created s') {e : Expression} (he : s.expression = some e) :
    ∃ e', s'.expression = some e' ∧ e.ContinuesAs e' := by
  have hfailed (reason : String) :
      ∃ e', (s.fail reason).expression = some e' ∧ e.ContinuesAs e' :=
    ⟨e.fail reason, by simp [Share.fail, he], e.continuesAs_settle _⟩
  cases h with
  | unchanged => exact ⟨e, he, .refl e⟩
  | submitted _ _ _ => contradiction
  | claimed _ _ _ => exact ⟨e, he, .refl e⟩
  | timedOut _ => exact hfailed _
  | refused _ _ _ _ => exact hfailed _
  | @resumed r t _ _ _ _ _ _ _ _ hsome hopen _ hpasses =>
    obtain rfl := Option.some.inj (he.symm.trans hsome)
    obtain ⟨e', he', hcontinues⟩ := hpasses.exists_continues
    exact ⟨e', he', (Expression.continuesAs_substitute hopen t.id r.result).trans hcontinues⟩
  | @unmentioned r t _ _ _ _ hsome hopen _ =>
    obtain rfl := Option.some.inj (he.symm.trans hsome)
    exact ⟨_, rfl, (Expression.continuesAs_substitute hopen t.id r.result).trans
      (Expression.continuesAs_settle _ _)⟩
  | ignored _ _ _ _ => exact ⟨e, he, .refl e⟩

/-- An event goes on with every expression of the table. -/
theorem exists_continues_step (hm : m.broker.IsOrdered) (ev : Event) {e : Expression}
    (hget : m.broker.table.get? x = some e) :
    ∃ e', (m.step ev).2.broker.table.get? x = some e' ∧ e.ContinuesAs e' := by
  obtain ⟨_, hchange, _⟩ := exists_change hm ev x
  exact hchange.exists_continues hget

/-- A run goes on with every expression of the table. -/
theorem exists_continues_after (hm : m.broker.IsConsistent) {e : Expression}
    (hget : m.broker.table.get? x = some e) (es : List Event) :
    ∃ e', (m.after es).broker.table.get? x = some e' ∧ e.ContinuesAs e' := by
  induction es generalizing m e with
  | nil => exact ⟨e, hget, .refl e⟩
  | cons ev es ih =>
    obtain ⟨e', hget', hfirst⟩ := exists_continues_step hm.isOrdered ev hget
    obtain ⟨e'', hget'', hrest⟩ := ih (isConsistent_step hm ev) hget'
    exact ⟨e'', hget'', hfirst.trans hrest⟩

end Moment

end Piecework
