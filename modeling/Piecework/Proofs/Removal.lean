import Piecework.Proofs.Retirement

/-!
# Bulk removal

Taking the lapsed claims and discarding an expression both collect numbers and complete them one by
one, while the queue shrinks. The outcome is that of one filter of the entries: the tasks of those
with a property are handed back in the order of their numbers, the others stay as they are, and
the watchdogs of the removed claims are cancelled, each once. So the same removal finds nothing
when it is made again.
-/

namespace Piecework.Queue

/-- A removal handed back the tasks of the entries with a property and left the other entries; it
cancelled the watchdogs of the claims among those that it removed. -/
structure Sifts (q : Queue) (P : Entry → Prop) [DecidablePred P] (r : List Task × Queue) :
    Prop where
  removed : r.1 = (q.entries.filter (P ·)).map (·.task)
  increasing : r.1.Pairwise (·.id < ·.id)
  kept : r.2.entries = q.entries.filter (¬ P ·)
  lastId_eq : r.2.lastId = q.lastId
  watchdogs : r.2.watchdogs = q.watchdogs.filter (· ∉ r.1.map (·.id))
  cancelled : ∃ latest : List Retirement, r.2.retired = latest ++ q.retired ∧ latest.Nodup ∧
    ∀ x, x ∈ latest ↔ ∃ e ∈ q.entries, P e ∧ e.isClaimed = true ∧ x = .cancelled e.task.id

variable {q : Queue}

/-- Completing the numbers of the entries with a property one by one is a filter of the queue. -/
theorem IsRegular.sifts_completeAll (h : q.IsRegular) (P : Entry → Prop) [DecidablePred P] :
    q.Sifts P (completeAll ((q.entries.filter (P ·)).map (·.task.id)) q) where
  removed := completeAll_tasks h.ordered List.filter_sublist
  increasing := by
    rw [completeAll_tasks h.ordered List.filter_sublist]
    exact List.pairwise_map.mpr (h.ordered.increasing.sublist List.filter_sublist)
  kept := by
    rw [completeAll_filter_entries h.ordered]
    exact List.filter_congr fun e _ => by simp
  lastId_eq := completeAll_lastId _ q
  watchdogs := by
    have hafter := h.guarded.completeAll ((q.entries.filter (P ·)).map (·.task.id))
    rw [completeAll_tasks h.ordered List.filter_sublist, hafter, completeAll_entries, h.guarded,
      List.filter_map, List.filter_comm, List.map_map]
    rfl
  cancelled := by
    refine ⟨_, h.guarded.retired_completeAll h.ordered List.filter_sublist, ?_, fun x => ?_⟩
    · have hids : ((q.entries.filter (P ·)).filter (·.isClaimed)).Pairwise
          (·.task.id ≠ ·.task.id) :=
        (h.ordered.increasing.sublist (List.filter_sublist.trans List.filter_sublist)).imp
          Nat.ne_of_lt
      rw [List.nodup_reverse]
      exact List.pairwise_map.mpr (hids.imp fun hne heq => hne (Retirement.cancelled.inj heq))
    · simp only [List.mem_reverse, List.mem_map, List.mem_filter, decide_eq_true_eq, and_assoc]
      exact exists_congr fun e => and_congr_right fun _ => and_congr_right fun _ =>
        and_congr_right fun _ => eq_comm

/-- Where no entry has a property there is nothing to complete. -/
theorem completeAll_of_forall_not {P : Entry → Prop} [DecidablePred P]
    (h : ∀ e ∈ q.entries, ¬ P e) :
    completeAll ((q.entries.filter (P ·)).map (·.task.id)) q = ([], q) := by
  rw [List.filter_eq_nil_iff.mpr (by simpa using h)]
  rfl

/-- A removal leaves no entry with the property. -/
theorem Sifts.not_of_mem {P : Entry → Prop} [DecidablePred P] {r : List Task × Queue}
    (h : q.Sifts P r) : ∀ e ∈ r.2.entries, ¬ P e := by
  intro e he
  rw [h.kept] at he
  exact of_decide_eq_true (List.mem_filter.mp he).2

/-- Taking the lapsed claims completes those whose deadline has come. -/
theorem takeExpired_eq (now : Time) (q : Queue) :
    q.takeExpired now =
      completeAll ((q.entries.filter fun e => ∃ d ∈ e.deadline, d ≤ now).map (·.task.id)) q := by
  rw [takeExpired]
  refine congrArg (fun es : List Entry => completeAll (es.map fun e => e.task.id) q)
    (List.filter_congr fun e _ => ?_)
  cases hdeadline : e.deadline <;> simp [Entry.hasLapsed, hdeadline]

/-- After any run of a new queue, taking the lapsed claims removes exactly the entries whose
deadline has come, and discarding an expression exactly the entries of the expression, claimed or
not and lapsed or not. Each hands the removed tasks back in the order of their numbers, leaves the
other entries and the last number as they are, and cancels exactly the watchdogs of the removed
claims, each once. The same removal made again hands back nothing and changes nothing. -/
theorem removals_are_filters (cs : List QueueCall) (now : Time) (expression : ExpressionId) :
    let q : Queue := after {} cs
    q.Sifts (fun e => ∃ d ∈ e.deadline, d ≤ now) (q.takeExpired now) ∧
      (q.takeExpired now).2.takeExpired now = ([], (q.takeExpired now).2) ∧
      q.Sifts (·.task.expression = expression) (q.discard expression) ∧
      (q.discard expression).2.discard expression = ([], (q.discard expression).2) := by
  intro q
  have hq : q.IsRegular := isRegular_empty.after cs
  have htaken : q.Sifts (fun e => ∃ d ∈ e.deadline, d ≤ now) (q.takeExpired now) := by
    rw [takeExpired_eq]
    exact hq.sifts_completeAll _
  have hdiscarded : q.Sifts (·.task.expression = expression) (q.discard expression) :=
    hq.sifts_completeAll _
  refine ⟨htaken, ?_, hdiscarded, completeAll_of_forall_not hdiscarded.not_of_mem⟩
  rw [takeExpired_eq now (q.takeExpired now).2]
  exact completeAll_of_forall_not htaken.not_of_mem

end Piecework.Queue
