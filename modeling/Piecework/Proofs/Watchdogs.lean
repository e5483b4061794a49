import Piecework.Proofs.Offers

/-!
# Watchdogs and claims

The queue has exactly one watchdog for each claimed task, in the order of the claims. A
departure retires the watchdog with the task, and a claim, which is always put on the
first entry without one, adds the watchdog of the last claimed entry.
-/

namespace Piecework

/-- The watchdogs are those of the claimed entries, in the order of the entries. -/
def Queue.IsGuarded (q : Queue) : Prop :=
  q.watchdogs = (q.entries.filter (·.isClaimed)).map (·.task.id)

namespace Queue

/-- A new queue has no watchdogs. -/
theorem isGuarded_empty : IsGuarded {} := rfl

/-- A departure takes the watchdog with it. -/
theorem IsGuarded.drop {q : Queue} (h : q.IsGuarded) (id : TaskId) (how : Retirement) :
    (q.drop id how).IsGuarded := by
  unfold IsGuarded at h ⊢
  simp only [Queue.drop, h, List.filter_map, List.filter_filter, Function.comp_def, Bool.and_comm]

/-- A row of departures takes the watchdogs with it. -/
theorem IsGuarded.completeAll {q : Queue} (h : q.IsGuarded) (ids : List TaskId) :
    (completeAll ids q).2.IsGuarded := by
  induction ids generalizing q with
  | nil => exact h
  | cons id ids ih =>
    simp only [Queue.completeAll, complete]
    cases q.get? id with
    | none => exact ih h
    | some e => exact ih (h.drop id (.cancelled id))

/-- A new task has no watchdog. -/
theorem IsGuarded.add {q : Queue} (h : q.IsGuarded) (d : Draft) : (q.add d).2.IsGuarded := by
  unfold IsGuarded at h ⊢
  simp [Queue.add, h, Entry.isClaimed]

/-- A claim adds a watchdog behind the others. -/
theorem watchdogs_of_claim {q q' : Queue} {now deadline : Time} {t : Task}
    (h : q.claim now = some (t, deadline, q')) : q'.watchdogs = q.watchdogs ++ [t.id] := by
  unfold claim at h
  split at h
  · contradiction
  · simp only [Option.some.injEq, Prod.mk.injEq] at h
    obtain ⟨rfl, rfl, rfl⟩ := h
    rfl

/-- A claim arms the watchdog of the entry that is claimed last. -/
theorem IsGuarded.claim {q q' : Queue} (h : q.IsGuarded) (hq : q.IsOrdered) {k : TaskId}
    (hk : q.IsClaimedUpTo k) {now deadline : Time} {t : Task}
    (hclaim : q.claim now = some (t, deadline, q')) : q'.IsGuarded := by
  obtain ⟨before, e, behind, hentries, _, hfree, rfl, hclaimed, _⟩ := exists_of_claim hclaim
  have hmem : e ∈ q.entries := by simp [hentries]
  have hincreasing := hq.increasing
  rw [hentries, List.pairwise_append] at hincreasing
  have habove : ¬ e.task.id ≤ k := by simp [← hk.isClaimed_iff e hmem, hfree]
  -- Nothing behind the entry is claimed, for it would be below the watermark.
  have hbehind : ∀ e' ∈ behind, e'.isClaimed = false := by
    intro e' he'
    have hlater : e.task.id < e'.task.id := List.rel_of_pairwise_cons hincreasing.2.1 he'
    have hqueued : e' ∈ q.entries := by simp [hentries, he']
    rw [← Bool.not_eq_true, hk.isClaimed_iff e' hqueued]
    exact fun hle => habove (Nat.le_trans (Nat.le_of_lt hlater) hle)
  have hnone : behind.filter (·.isClaimed) = [] :=
    List.filter_eq_nil_iff.mpr fun e' he' => by simp [hbehind e' he']
  have hheld : Entry.isClaimed ⟨e.task, some deadline⟩ = true := rfl
  unfold IsGuarded at h ⊢
  rw [watchdogs_of_claim hclaim, h, hentries, hclaimed]
  simp [List.filter_append, hfree, hheld, hnone]

/-- Every operation keeps the watchdogs of a queue with a watermark. -/
theorem IsGuarded.perform {q : Queue} (h : q.IsGuarded) (hq : q.IsOrdered) {k : TaskId}
    (hk : q.IsClaimedUpTo k) (c : QueueCall) : (q.perform c).2.IsGuarded := by
  cases c with
  | add d => exact h.add d
  | claim now =>
    simp only [Queue.perform]
    cases hclaim : q.claim now with
    | none => exact h
    | some r => exact h.claim hq hk hclaim
  | complete id =>
    simp only [Queue.perform, complete]
    cases q.get? id with
    | none => exact h
    | some e => exact h.drop id (.cancelled id)
  | reclaim id now =>
    simp only [Queue.perform, reclaim]
    cases q.get? id with
    | none => exact h
    | some e =>
      cases hlapsed : e.hasLapsed now
      · simpa [hlapsed] using h
      · simpa [hlapsed] using h.drop id (.released id)
  | takeExpired now => exact h.completeAll _
  | discard expression => exact h.completeAll _

/-- A row of operations without claims keeps the watchdogs. -/
theorem ReachesUnclaiming.isGuarded {q q' : Queue} (h : q.ReachesUnclaiming q')
    (hguarded : q.IsGuarded) (hq : q.IsOrdered) {k : TaskId} (hk : q.IsClaimedUpTo k) :
    q'.IsGuarded := by
  obtain ⟨cs, hcs, rfl⟩ := h
  induction cs generalizing q with
  | nil => exact hguarded
  | cons c cs ih =>
    exact ih (hguarded.perform hq hk c) (hq.perform c)
      (hk.perform fun now => hcs c List.mem_cons_self now)
      fun d hd => hcs d (List.mem_cons_of_mem _ hd)

end Queue

namespace Moment

variable {m : Moment} {k : TaskId}

/-- An event leaves a watermark. -/
theorem exists_watermark_step (hm : m.broker.IsOrdered) (hk : m.broker.queue.IsClaimedUpTo k)
    (ev : Event) : ∃ k', (m.step ev).2.broker.queue.IsClaimedUpTo k' := by
  by_cases hoffer : ∃ t, (m.step ev).1 = .offered (some t)
  · obtain ⟨t, ht⟩ := hoffer
    exact ⟨t.id, (isClaimedUpTo_step_of_offered hm hk ht).2⟩
  · exact ⟨k, isClaimedUpTo_step_of_not_offered hm hk (not_exists.mp hoffer)⟩

/-- An event keeps the watchdogs those of the claimed tasks. -/
theorem isGuarded_step (hm : m.broker.IsOrdered) (hk : m.broker.queue.IsClaimedUpTo k)
    (hguarded : m.broker.queue.IsGuarded) (ev : Event) :
    (m.step ev).2.broker.queue.IsGuarded := by
  by_cases hpoll : ev = .poll
  · subst hpoll
    have hreap := Broker.proceeds_reap m.now m.broker
    have hreaped := hreap.1.isGuarded hguarded hm.queue hk
    simp only [step, Broker.poll]
    cases hclaim : (m.broker.reap m.now).queue.claim m.now with
    | none => exact hreaped
    | some r => exact hreaped.claim (hreap.isOrdered hm.queue) (hreap.1.isClaimedUpTo hk) hclaim
  · exact ((step_keeps_order hm ev).2.2 hpoll).isGuarded hguarded hm.queue hk

/-- A run keeps the watchdogs those of the claimed tasks. -/
theorem isGuarded_after (hm : m.broker.IsConsistent) (hk : m.broker.queue.IsClaimedUpTo k)
    (hguarded : m.broker.queue.IsGuarded) (es : List Event) :
    (m.after es).broker.queue.IsGuarded := by
  induction es generalizing m k with
  | nil => exact hguarded
  | cons ev es ih =>
    obtain ⟨k', hk'⟩ := exists_watermark_step hm.isOrdered hk ev
    exact ih (isConsistent_step hm ev) hk' (isGuarded_step hm.isOrdered hk hguarded ev)

/-- In a reachable moment the watchdogs are those of the claimed tasks. -/
theorem Reachable.isGuarded (h : m.Reachable) : m.broker.queue.IsGuarded := by
  obtain ⟨costs, events, rfl⟩ := h
  exact isGuarded_after (Broker.isConsistent_new costs) Queue.isClaimedUpTo_empty
    Queue.isGuarded_empty events

end Moment

end Piecework
