import Piecework.Proofs.Pass
import Piecework.Proofs.Queue
import Piecework.Queue.Run

/-!
# Runs of the queue

Every operation keeps the entries in order, whatever its arguments. A row of
operations without a claim is singled out, since most of what the broker does with
its queue is such a row.
-/

namespace Piecework

namespace Queue

/-- A new queue is in order. -/
theorem isOrdered_empty : IsOrdered {} := ⟨List.Pairwise.nil, by simp⟩

/-- An operation that neither adds nor claims can only remove entries. -/
theorem perform_sublist (q : Queue) {c : QueueCall} (hadd : ∀ d, c ≠ .add d)
    (hclaim : ∀ now, c ≠ .claim now) :
    (q.perform c).2.entries.Sublist q.entries ∧ (q.perform c).2.lastId = q.lastId := by
  have hall (ids : List TaskId) : (Queue.completeAll ids q).2.entries.Sublist q.entries ∧
      (Queue.completeAll ids q).2.lastId = q.lastId := by
    rw [completeAll_entries]
    exact ⟨List.filter_sublist, completeAll_lastId ids q⟩
  cases c with
  | add d => exact absurd rfl (hadd d)
  | claim now => exact absurd rfl (hclaim now)
  | complete id =>
    simp only [Queue.perform, complete]
    cases q.get? id with
    | none => exact ⟨.refl _, rfl⟩
    | some e => exact ⟨List.filter_sublist, rfl⟩
  | reclaim id now =>
    simp only [Queue.perform, reclaim]
    cases q.get? id with
    | none => exact ⟨.refl _, rfl⟩
    | some e =>
      cases hlapsed : e.hasLapsed now
      · simp [hlapsed]
      · simp only [hlapsed, if_true]
        exact ⟨List.filter_sublist, rfl⟩
  | takeExpired now => exact hall _
  | discard expression => exact hall _

/-- Every operation keeps the order. -/
theorem IsOrdered.perform {q : Queue} (hq : q.IsOrdered) (c : QueueCall) :
    (q.perform c).2.IsOrdered := by
  cases c with
  | add d => exact hq.add d
  | claim now =>
    simp only [Queue.perform, claim]
    cases hfirst : claimFirst now q.entries with
    | none => exact hq
    | some r => exact hq.of_tasks_eq (claimFirst_tasks hfirst) rfl
  | complete id | reclaim id now | takeExpired now | discard expression =>
    refine hq.of_sublist (q.perform_sublist ?_ ?_).1 (q.perform_sublist ?_ ?_).2
    all_goals simp

/-- Every row of operations keeps the order. -/
theorem IsOrdered.after {q : Queue} (hq : q.IsOrdered) (cs : List QueueCall) :
    (q.after cs).IsOrdered := by
  induction cs generalizing q with
  | nil => exact hq
  | cons c cs ih => exact ih (hq.perform c)

/-- A row of operations is carried out one part after the other. -/
theorem after_append (q : Queue) (cs ds : List QueueCall) :
    q.after (cs ++ ds) = (q.after cs).after ds := by
  induction cs generalizing q with
  | nil => rfl
  | cons c cs ih => exact ih _

/-- A queue that a row of operations comes to without claiming anything. -/
def ReachesUnclaiming (q q' : Queue) : Prop :=
  ∃ cs : List QueueCall, (∀ c ∈ cs, ∀ now, c ≠ .claim now) ∧ q' = q.after cs

/-- Doing nothing claims nothing. -/
theorem ReachesUnclaiming.refl (q : Queue) : q.ReachesUnclaiming q := ⟨[], by simp, rfl⟩

/-- Two rows without claims make one. -/
theorem ReachesUnclaiming.trans {q q' q'' : Queue} (h : q.ReachesUnclaiming q')
    (h' : q'.ReachesUnclaiming q'') : q.ReachesUnclaiming q'' := by
  obtain ⟨cs, hcs, rfl⟩ := h
  obtain ⟨ds, hds, rfl⟩ := h'
  refine ⟨cs ++ ds, fun c hc => ?_, (after_append q cs ds).symm⟩
  exact (List.mem_append.mp hc).elim (hcs c) (hds c)

/-- An operation other than a claim claims nothing. -/
theorem ReachesUnclaiming.perform (q : Queue) {c : QueueCall} (hc : ∀ now, c ≠ .claim now) :
    q.ReachesUnclaiming (q.perform c).2 := ⟨[c], by simpa using hc, rfl⟩

/-- Order survives rows without claims. -/
theorem ReachesUnclaiming.isOrdered {q q' : Queue} (h : q.ReachesUnclaiming q')
    (hq : q.IsOrdered) : q'.IsOrdered := by
  obtain ⟨cs, _, rfl⟩ := h
  exact hq.after cs

/-- An entry after an operation that claims nothing was queued before, or is new and unclaimed. -/
theorem mem_or_new_of_perform {q : Queue} {c : QueueCall} (hclaim : ∀ now, c ≠ .claim now)
    {e : Entry} (he : e ∈ (q.perform c).2.entries) :
    e ∈ q.entries ∨ q.lastId < e.task.id ∧ e.isClaimed = false := by
  by_cases hadd : ∃ d, c = .add d
  · obtain ⟨d, rfl⟩ := hadd
    rcases List.mem_append.mp he with hold | hnew
    · exact .inl hold
    · obtain rfl := List.mem_singleton.mp hnew
      exact .inr ⟨Nat.lt_succ_self _, rfl⟩
  · exact .inl ((q.perform_sublist (not_exists.mp hadd) hclaim).1.subset he)

/-- No operation takes a number back. -/
theorem lastId_le_perform (q : Queue) {c : QueueCall} (hclaim : ∀ now, c ≠ .claim now) :
    q.lastId ≤ (q.perform c).2.lastId := by
  by_cases hadd : ∃ d, c = .add d
  · obtain ⟨d, rfl⟩ := hadd
    exact Nat.le_succ _
  · exact Nat.le_of_eq (q.perform_sublist (not_exists.mp hadd) hclaim).2.symm

/-- An entry after a row without claims was queued before, or is new and unclaimed. -/
theorem ReachesUnclaiming.mem_or_new {q q' : Queue} (h : q.ReachesUnclaiming q') {e : Entry}
    (he : e ∈ q'.entries) : e ∈ q.entries ∨ q.lastId < e.task.id ∧ e.isClaimed = false := by
  obtain ⟨cs, hcs, rfl⟩ := h
  induction cs generalizing q with
  | nil => exact .inl he
  | cons c cs ih =>
    have hclaim (now : Time) : c ≠ .claim now := hcs c List.mem_cons_self now
    rcases ih (fun d hd => hcs d (List.mem_cons_of_mem _ hd)) he with hold | ⟨hnew, hfree⟩
    · exact mem_or_new_of_perform hclaim hold
    · exact .inr ⟨Nat.lt_of_le_of_lt (q.lastId_le_perform hclaim) hnew, hfree⟩

/-- A sink in front of a queue appends unclaimed entries under the next numbers. -/
theorem entries_of_takes {created : List Task} {q q' : Queue} (h : sink.Takes created q q') :
    q'.entries = q.entries ++ created.map (⟨·, none⟩) ∧
      q'.lastId = q.lastId + created.length ∧
      created.map (·.id) = List.range' (q.lastId + 1) created.length := by
  induction h with
  | nil q => simp
  | @cons t ts q q' q'' hadd _ ih =>
    obtain ⟨hid, rfl⟩ := Prod.mk.inj hadd
    obtain ⟨hentries, hlast, hnumbers⟩ := ih
    refine ⟨?_, ?_, ?_⟩
    · rw [hentries, List.append_assoc, hid]
      rfl
    · rw [hlast, List.length_cons, Nat.add_assoc, Nat.add_comm 1]
    · rw [List.map_cons, hnumbers, List.length_cons, List.range'_succ, ← hid]

/-- A sink in front of a queue claims nothing. -/
theorem reachesUnclaiming_of_takes {created : List Task} {q q' : Queue}
    (h : sink.Takes created q q') : q.ReachesUnclaiming q' := by
  induction h with
  | nil q => exact .refl q
  | @cons t ts q q' q'' hadd _ ih =>
    have hq' : q' = (q.perform (.add t.toDraft)).2 := (congrArg Prod.snd hadd).symm
    exact (hq' ▸ ReachesUnclaiming.perform q (by simp)).trans ih

end Queue

end Piecework
