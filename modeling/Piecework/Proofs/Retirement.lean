import Piecework.Proofs.QueueHistory

/-!
# The retirement of watchdogs

A claim arms the watchdog of its task, and the watchdog is retired at the operation
that takes the task out of the queue: released when it reclaims its own task, and
cancelled otherwise. So the watchdogs that a run has armed are divided between those
still on guard, which are those of the claimed tasks, and those that it has retired.
-/

namespace Piecework.Queue

open scoped List

variable {q : Queue}

/-! ## One operation -/

/-- A queued task has a watchdog when it is claimed. -/
theorem IsGuarded.mem_watchdogs_iff (h : q.IsGuarded) (hq : q.IsOrdered) {e : Entry}
    (he : e ∈ q.entries) : e.task.id ∈ q.watchdogs ↔ e.isClaimed = true := by
  rw [h, List.mem_map]
  constructor
  · rintro ⟨e', he', hid⟩
    obtain ⟨hqueued, hclaimed⟩ := List.mem_filter.mp he'
    rwa [← hq.eq_of_id_eq hqueued he hid]
  · exact fun hclaimed => ⟨e, List.mem_filter.mpr ⟨he, hclaimed⟩, rfl⟩

/-- Dropping a queued task retires its watchdog, if it has one. -/
theorem IsGuarded.retired_drop (h : q.IsGuarded) (hq : q.IsOrdered) {e : Entry}
    (he : e ∈ q.entries) (how : TaskId → Retirement) :
    (q.drop e.task.id (how e.task.id)).retired =
      (([e].filter (·.isClaimed)).map fun e => how e.task.id) ++ q.retired := by
  unfold Queue.drop
  cases hclaimed : e.isClaimed <;> simp [h.mem_watchdogs_iff hq he, hclaimed]

/-- Completing the numbers of queued entries cancels their watchdogs. -/
theorem IsGuarded.retired_completeAll (h : q.IsGuarded) (hq : q.IsOrdered) {es : List Entry}
    (hes : es.Sublist q.entries) :
    (Queue.completeAll (es.map (·.task.id)) q).2.retired =
      ((es.filter (·.isClaimed)).map fun e => .cancelled e.task.id).reverse ++ q.retired := by
  induction es generalizing q with
  | nil => rfl
  | cons e es ih =>
    have he : e ∈ q.entries := hes.subset List.mem_cons_self
    simp only [List.map_cons, Queue.completeAll, complete, hq.get?_eq_some he]
    rw [ih (h.drop _ _) (hq.drop _ _) (hq.sublist_drop hes _), h.retired_drop hq he]
    cases hclaimed : e.isClaimed <;> simp [hclaimed]

/-- An operation retires the watchdogs of the claimed entries that it takes. -/
theorem IsGuarded.retired_perform (h : q.IsGuarded) (hq : q.IsOrdered) (c : QueueCall) :
    (q.perform c).2.retired =
      (((q.entries.filter c.takes).filter (·.isClaimed)).map
        fun e => c.retirement e.task.id).reverse ++ q.retired := by
  cases c with
  | add d => simp [Queue.perform, Queue.add, QueueCall.takes]
  | claim now =>
    simp only [Queue.perform, Queue.claim]
    cases claimFirst now q.entries <;> simp [QueueCall.takes]
  | complete id =>
    rw [hq.filter_takes_complete, Queue.perform, complete]
    cases hfind : q.get? id with
    | none => rfl
    | some e =>
      obtain ⟨he, rfl⟩ := mem_of_get? hfind
      exact (h.retired_drop hq he .cancelled).trans
        (by cases hclaimed : e.isClaimed <;> simp [hclaimed, QueueCall.retirement])
  | reclaim id now =>
    rw [hq.filter_takes_reclaim, Queue.perform, reclaim]
    cases hfind : q.get? id with
    | none => rfl
    | some e =>
      obtain ⟨he, rfl⟩ := mem_of_get? hfind
      cases hlapsed : e.hasLapsed now with
      | false => simp [hlapsed]
      | true =>
        simp only [hlapsed, if_true]
        exact (h.retired_drop hq he .released).trans
          (by cases hclaimed : e.isClaimed <;> simp [hclaimed, hlapsed, QueueCall.retirement])
  | takeExpired now => exact h.retired_completeAll hq List.filter_sublist
  | discard expression => exact h.retired_completeAll hq List.filter_sublist

/-- A retirement is named for the task whose watchdog it retires. -/
theorem id_retirement (c : QueueCall) (id : TaskId) : (c.retirement id).id = id := by
  cases c <;> rfl

/-- An operation that hands out no task leaves the claimed entries that it does not take. -/
theorem filter_isClaimed_perform (hq : q.IsOrdered) {c : QueueCall}
    (hclaimed : (q.perform c).1.claimed = none) :
    (q.perform c).2.entries.filter (·.isClaimed) =
      (q.entries.filter (·.isClaimed)).filter (! c.takes ·) := by
  cases c with
  | add d => simp [Queue.perform, Queue.add, QueueCall.takes, Entry.isClaimed]
  | claim now =>
    rw [perform_claim_of_none hclaimed]
    simp [QueueCall.takes]
  | complete id | reclaim id now | takeExpired now | discard expression =>
    rw [entries_perform hq (by simp) (by simp), List.filter_filter, List.filter_filter]
    simp only [Bool.and_comm]

/-- The watchdogs after an operation, on guard or retired, are those from before and the one that
the operation arms. -/
theorem IsRegular.watchdogs_perform (h : q.IsRegular) (c : QueueCall) :
    (q.perform c).2.watchdogs ++ (q.perform c).2.retired.map (·.id) ~
      q.watchdogs ++ q.retired.map (·.id) ++ (q.perform c).1.claimed.toList.map (·.id) := by
  have hretired := h.guarded.retired_perform h.ordered c
  rw [List.filter_comm] at hretired
  -- An operation that arms a watchdog takes no entry, and any other moves watchdogs only.
  cases hclaimed : (q.perform c).1.claimed with
  | some t =>
    obtain ⟨now, deadline, q', rfl, hclaim, hafter⟩ := exists_claim_of_perform hclaimed
    have hnone : (q.entries.filter (·.isClaimed)).filter (QueueCall.claim now).takes = [] := by
      simp [QueueCall.takes]
    rw [hretired, hnone, hafter, watchdogs_of_claim hclaim, List.append_assoc, List.append_assoc]
    exact List.perm_append_comm.append_left _
  | none =>
    have hguarded : (q.perform c).2.watchdogs = _ := (h.perform c).guarded
    have hids : ((((q.entries.filter (·.isClaimed)).filter c.takes).map
        fun e => c.retirement e.task.id).map (·.id)) =
          ((q.entries.filter (·.isClaimed)).filter c.takes).map (·.task.id) := by
      simp [id_retirement]
    rw [hretired, hguarded, filter_isClaimed_perform h.ordered hclaimed, h.guarded,
      List.map_append, List.map_reverse, hids]
    generalize q.entries.filter (·.isClaimed) = claimed
    calc
      (claimed.filter (! c.takes ·)).map (·.task.id) ++
          (((claimed.filter c.takes).map (·.task.id)).reverse ++ q.retired.map (·.id))
        ~ (claimed.filter (! c.takes ·)).map (·.task.id) ++
            ((claimed.filter c.takes).map (·.task.id) ++ q.retired.map (·.id)) :=
          ((List.reverse_perm _).append_right _).append_left _
      _ ~ (claimed.filter c.takes).map (·.task.id) ++
            ((claimed.filter (! c.takes ·)).map (·.task.id) ++ q.retired.map (·.id)) :=
          List.perm_append_comm_assoc _ _ _
      _ = (claimed.filter c.takes ++ claimed.filter (! c.takes ·)).map (·.task.id) ++
            q.retired.map (·.id) := by rw [List.map_append, List.append_assoc]
      _ ~ claimed.map (·.task.id) ++ q.retired.map (·.id) :=
          ((List.filter_append_perm c.takes claimed).map _).append_right _
      _ = _ := (List.append_nil _).symm

/-- The latest retirements are those of the watchdogs whose tasks leave with the operation. -/
theorem IsRegular.exists_latest (h : q.IsRegular) (c : QueueCall) :
    ∃ latest, (q.perform c).2.retired = latest ++ q.retired ∧
      ∀ r, r ∈ latest ↔
        r.id ∈ q.watchdogs ∧ (q.perform c).2.contains r.id = false ∧ r = c.retirement r.id := by
  refine ⟨_, h.guarded.retired_perform h.ordered c, fun r => ?_⟩
  simp only [List.mem_reverse, List.mem_map, List.mem_filter]
  constructor
  · rintro ⟨e, ⟨⟨he, htakes⟩, hclaimed⟩, rfl⟩
    rw [id_retirement]
    exact ⟨(h.guarded.mem_watchdogs_iff h.ordered he).mpr hclaimed,
      (contains_perform_iff h.ordered c he).mpr htakes, rfl⟩
  · rintro ⟨hwatched, hleft, hr⟩
    rw [h.guarded, List.mem_map] at hwatched
    obtain ⟨e, he, hid⟩ := hwatched
    obtain ⟨hqueued, hclaimed⟩ := List.mem_filter.mp he
    rw [← hid] at hleft hr
    exact ⟨e, ⟨⟨hqueued, (contains_perform_iff h.ordered c hqueued).mp hleft⟩, hclaimed⟩, hr.symm⟩

/-- What makes a number leave: a watchdog that reclaims it, or one of the three operations that
cancel watchdogs. -/
theorem eq_retirement_iff {c : QueueCall} {e : Entry} (htakes : c.takes e = true) :
    (.released e.task.id = c.retirement e.task.id ↔ ∃ now, c = .reclaim e.task.id now) ∧
      (.cancelled e.task.id = c.retirement e.task.id ↔
        c = .complete e.task.id ∨ (∃ now, c = .takeExpired now) ∨ ∃ x, c = .discard x) := by
  cases c with
  | add d | claim now => contradiction
  | complete id =>
    obtain rfl : e.task.id = id := of_decide_eq_true htakes
    simp [QueueCall.retirement]
  | reclaim id now =>
    obtain rfl : e.task.id = id := of_decide_eq_true (Bool.and_eq_true_iff.mp htakes).2
    simp [QueueCall.retirement]
  | takeExpired now | discard x => simp [QueueCall.retirement]

/-! ## Runs -/

/-- The watchdogs after a run, on guard or retired, are those from before and those that the run
has armed. -/
theorem IsRegular.watchdogs_after (h : q.IsRegular) (cs : List QueueCall) :
    (q.after cs).watchdogs ++ (q.after cs).retired.map (·.id) ~
      q.watchdogs ++ q.retired.map (·.id) ++ (q.claims cs).map (·.id) := by
  induction cs generalizing q with
  | nil => exact .of_eq (List.append_nil _).symm
  | cons c cs ih =>
    rw [claims_cons, List.map_append, ← List.append_assoc]
    exact (ih (h.perform c)).trans ((h.watchdogs_perform c).append_right _)

/-- After any run of a new queue exactly the claimed tasks have a watchdog on guard. The watchdogs
that the run has armed, one for each task that it handed out, are divided between those on guard and
those retired, so none is retired twice. An operation retires the watchdogs of exactly those tasks
that leave the queue with it: by release if it reclaims the task, and by cancellation if it
completes the task, takes the lapsed claims or discards an expression. -/
theorem watchdogs_follow_claims (cs : List QueueCall) :
    let q : Queue := after {} cs
    (∀ id, id ∈ q.watchdogs ↔ ∃ e ∈ q.entries, e.task.id = id ∧ e.isClaimed = true) ∧
      q.watchdogs ++ q.retired.map (·.id) ~ (claims {} cs).map (·.id) ∧
      ((claims {} cs).map (·.id)).Nodup ∧
      ∀ c : QueueCall, ∃ latest, (q.perform c).2.retired = latest ++ q.retired ∧
        (∀ id, .released id ∈ latest ↔
          id ∈ q.watchdogs ∧ (q.perform c).2.contains id = false ∧ ∃ now, c = .reclaim id now) ∧
        ∀ id, .cancelled id ∈ latest ↔
          id ∈ q.watchdogs ∧ (q.perform c).2.contains id = false ∧
            (c = .complete id ∨ (∃ now, c = .takeExpired now) ∨ ∃ x, c = .discard x) := by
  intro q
  have hq : q.IsRegular := isRegular_empty.after cs
  have hmem (id : TaskId) :
      id ∈ q.watchdogs ↔ ∃ e ∈ q.entries, e.task.id = id ∧ e.isClaimed = true := by
    rw [hq.guarded, List.mem_map]
    simp only [List.mem_filter, and_assoc, and_comm]
  refine ⟨hmem, isRegular_empty.watchdogs_after cs, isRegular_empty.nodup_claims cs, fun c => ?_⟩
  obtain ⟨latest, hretired, hlatest⟩ := hq.exists_latest c
  have hleaves {id : TaskId} (hwatched : id ∈ q.watchdogs)
      (hleft : (q.perform c).2.contains id = false) : ∃ e, e.task.id = id ∧ c.takes e = true := by
    obtain ⟨e, he, rfl, _⟩ := (hmem id).mp hwatched
    exact ⟨e, rfl, (contains_perform_iff hq.ordered c he).mp hleft⟩
  refine ⟨latest, hretired, fun id => (hlatest _).trans ?_, fun id => (hlatest _).trans ?_⟩
  all_goals
    refine and_congr_right fun hwatched => and_congr_right fun hleft => ?_
    obtain ⟨e, rfl, htakes⟩ := hleaves hwatched hleft
  · exact (eq_retirement_iff htakes).1
  · exact (eq_retirement_iff htakes).2

end Piecework.Queue
