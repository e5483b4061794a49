import Piecework.Proofs.Share

/-!
# Timing out

A poll reaps every lapsed claim and a watchdog the claim of its own task. Either
way the expressions of the lapsed tasks fail once, and no other share changes.
-/

namespace Piecework

namespace Broker

/-- Timing out a row of tasks proceeds from one to the next. -/
theorem proceeds_foldl_timeOut (ts : List Task) (b : Broker) :
    b.Proceeds (ts.foldl (fun b t => b.timeOut t) b) := by
  induction ts generalizing b with
  | nil => exact .refl b
  | cons t ts ih => exact (proceeds_timeOut t b).trans (ih _)

/-- Timing out a row of tasks fails their expressions and leaves the shares of the others. -/
theorem share_foldl_timeOut (ts : List Task) {b : Broker} (hq : b.queue.IsOrdered)
    (y : ExpressionId) :
    (ts.foldl (fun b t => b.timeOut t) b).share y =
      if y ∈ ts.map (·.expression) then (b.share y).fail timeoutReason else b.share y := by
  induction ts generalizing b with
  | nil => simp
  | cons t ts ih =>
    rw [List.foldl_cons, ih ((proceeds_timeOut t b).isOrdered hq), share_timeOut hq]
    by_cases ht : y = t.expression <;> by_cases hts : y ∈ ts.map (·.expression) <;>
      simp [ht, hts, Share.fail_fail]

/-- Reaping removes lapsed claims and proceeds with their expressions. -/
theorem proceeds_reap (now : Time) (b : Broker) : b.Proceeds (b.reap now) :=
  (proceeds_perform b (c := .takeExpired now) (by simp)).trans (proceeds_foldl_timeOut _ _)

/-- Reaping fails the expressions with a lapsed claim and leaves the shares of the others. -/
theorem share_reap {b : Broker} (hq : b.queue.IsOrdered) (now : Time) (y : ExpressionId) :
    (b.reap now).share y =
      if ∃ e ∈ b.queue.entries, e.hasLapsed now ∧ e.task.expression = y then
        (b.share y).fail timeoutReason
      else b.share y := by
  have htaken : (b.queue.takeExpired now).2.IsOrdered := hq.completeAll _
  have hmem : y ∈ (b.queue.takeExpired now).1.map (·.expression) ↔
      ∃ e ∈ b.queue.entries, e.hasLapsed now ∧ e.task.expression = y := by
    simp [Queue.takeExpired_tasks hq, and_assoc]
  simp only [reap]
  rw [share_foldl_timeOut _ htaken]
  simp only [hmem]
  split
  · rfl
  · next hy =>
    refine share_congr rfl ?_
    rw [Queue.takeExpired_entries hq, List.filter_filter]
    apply List.filter_congr
    intro e he
    by_cases hlapsed : e.hasLapsed now = true
    · have hne : e.task.expression ≠ y := fun h => hy ⟨e, he, hlapsed, h⟩
      simp [hne]
    · simp [hlapsed]

/-- A watchdog proceeds with its own task only. -/
theorem proceeds_reclaim (id : TaskId) (now : Time) (b : Broker) :
    b.Proceeds (b.reclaim id now) := by
  have hreclaim := proceeds_perform b (c := .reclaim id now) (by simp)
  unfold reclaim
  simp only [Queue.perform] at hreclaim
  split
  · exact .refl b
  · next t q hfound =>
    rw [hfound] at hreclaim
    exact hreclaim.trans (proceeds_timeOut t { b with queue := q })

/-- A watchdog fails the expression of its task if the claim has lapsed, and does nothing else. -/
theorem share_reclaim {b : Broker} (hq : b.queue.IsOrdered) (id : TaskId) (now : Time)
    (y : ExpressionId) :
    (b.reclaim id now).share y =
      if ∃ e ∈ b.queue.entries, e.task.id = id ∧ e.hasLapsed now ∧ e.task.expression = y then
        (b.share y).fail timeoutReason
      else b.share y := by
  unfold reclaim Queue.reclaim
  cases hfind : b.queue.get? id with
  | none =>
    have hnone : ¬ ∃ e ∈ b.queue.entries,
        e.task.id = id ∧ e.hasLapsed now ∧ e.task.expression = y :=
      fun ⟨e, he, hid, _⟩ => Queue.ne_of_get?_eq_none hfind e he hid
    rw [if_neg hnone]
  | some e =>
    obtain ⟨he, hid⟩ := Queue.mem_of_get? hfind
    have hiff : (∃ e ∈ b.queue.entries,
        e.task.id = id ∧ e.hasLapsed now ∧ e.task.expression = y) ↔
        e.hasLapsed now ∧ e.task.expression = y := by
      constructor
      · rintro ⟨e', he', hid', hrest⟩
        rwa [hq.eq_of_id_eq he' he (hid'.trans hid.symm)] at hrest
      · exact fun hrest => ⟨e, he, hid, hrest⟩
    simp only [hiff]
    by_cases hlapsed : e.hasLapsed now = true
    · have hdropped : (b.queue.drop id (.released id)).IsOrdered := hq.drop _ _
      simp only [hlapsed, if_true, true_and, share_gauge]
      rw [share_timeOut hdropped, eq_comm]
      by_cases hy : e.task.expression = y
      · simp [hy, Share.fail, share]
      · rw [if_neg hy, if_neg (Ne.symm hy)]
        refine share_congr rfl ?_
        rw [Queue.drop_entries, List.filter_filter]
        apply List.filter_congr
        intro e' he'
        by_cases hid' : e'.task.id = id
        · rw [hq.eq_of_id_eq he' he (hid'.trans hid.symm)]
          simp [hy]
        · simp [hid']
    · simp [hlapsed]

end Broker

end Piecework
