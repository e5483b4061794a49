import Piecework.Proofs.SharePass

/-!
# Submitting

Submitting registers an expression under the next number and runs a pass over its
program. The number was not given before, so the new expression starts with a
share of its own and without tasks, and no other share changes.
-/

namespace Piecework

/-- Queue and table are in order, and every queued task belongs to an expression of the table. -/
structure Broker.IsOrdered (b : Broker) : Prop where
  queue : b.queue.IsOrdered
  table : b.table.IsNumbered
  known : ∀ x, (b.share x).expression = none → (b.share x).entries = []

namespace Broker

variable {b : Broker} {x y : ExpressionId}

/-- A registered expression has a share of its own without tasks. -/
theorem share_insert (hb : b.IsOrdered) (owner : Nat) (text : String) (p : Program)
    (y : ExpressionId) :
    Broker.share y { b with table := (b.table.insert owner text p).2 } =
      if y = b.table.lastId + 1 then
        ⟨some ⟨b.table.lastId + 1, owner, text, p, .processing⟩, []⟩
      else b.share y := by
  unfold share
  rw [hb.table.get?_insert]
  split
  · next hy =>
    have hnone : b.table.get? y = none := hb.table.get?_eq_none (hy ▸ Nat.lt_succ_self _)
    rw [show b.queue.entries.filter (·.task.expression = y) = [] from hb.known y hnone]
  · rfl

/-- Submitting registers the next expression and runs a pass over its program. -/
theorem exists_passes_submit (hb : b.IsOrdered) {text : String} {owner : Nat} {x : ExpressionId}
    {b' : Broker} (h : b.submit text owner = .ok (x, b')) :
    ∃ p created, Infix.compile text = .ok p ∧ b.share x = ⟨none, []⟩ ∧
      Task.Issued b.costs x b.queue.lastId created ∧
      Share.Passes p ⟨some ⟨x, owner, text, p, .processing⟩, []⟩ created (b'.share x) ∧
      b'.queue.lastId = b.queue.lastId + created.length ∧
      (∀ y, y ≠ x → b'.share y = b.share y) ∧
      b.queue.ReachesUnclaiming b'.queue ∧ b'.table.IsNumbered := by
  unfold submit at h
  split at h
  · contradiction
  · next p hcompile =>
    obtain ⟨rfl, rfl⟩ := Prod.mk.inj (Except.ok.inj h)
    let registered : Broker :=
      noteExpression .submitted { b with table := (b.table.insert owner text p).2 }
    have hinsert (y : ExpressionId) : registered.share y = _ := share_insert hb owner text p y
    have hnone : b.table.get? (b.table.lastId + 1) = none :=
      hb.table.get?_eq_none (Nat.lt_succ_self _)
    obtain ⟨created, hissued, hpasses, hlast⟩ :=
      exists_passes_runPass (b := registered) hb.queue (b.table.lastId + 1) p
    rw [hinsert, if_pos rfl] at hpasses
    have hproceeds := proceeds_runPass (b.table.lastId + 1) p registered
    refine ⟨p, created, hcompile, ?_, hissued, hpasses, hlast, ?_, hproceeds.1,
      hproceeds.2.isNumbered (hb.table.insert owner text p)⟩
    · exact congrArg₂ Share.mk hnone (hb.known _ hnone)
    · intro y hne
      exact (share_runPass_of_ne (b := registered) hb.queue hne p).trans
        ((hinsert y).trans (if_neg hne))

/-- Submitting keeps the numbers of the table with the next expression registered. -/
theorem exists_sameNumbers_submit {text : String} {owner : Nat} {x : ExpressionId} {b' : Broker}
    (h : b.submit text owner = .ok (x, b')) :
    x = b.table.lastId + 1 ∧ ∃ p, Infix.compile text = .ok p ∧
      (b.table.insert owner text p).2.SameNumbers b'.table := by
  unfold submit at h
  split at h
  · contradiction
  · next p hcompile =>
    obtain ⟨rfl, rfl⟩ := Prod.mk.inj (Except.ok.inj h)
    let registered : Broker :=
      noteExpression .submitted { b with table := (b.table.insert owner text p).2 }
    exact ⟨rfl, p, hcompile, (proceeds_runPass (b.table.lastId + 1) p registered).2⟩

end Broker

end Piecework
