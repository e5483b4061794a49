import Piecework.Proofs.Reachable

/-!
# What polls hand out

At any time the claimed entries of a queue are those up to some number, a
watermark that only claims move, and always to the number of the task that is
claimed. So tasks are handed out in the order of their numbers, and a number that
was handed out never comes up again, whatever became of its claim.
-/

namespace Piecework

namespace Queue

/-! ## The watermark -/

/-- Exactly the entries up to a number are claimed, and the number was given already. -/
structure IsClaimedUpTo (q : Queue) (k : TaskId) : Prop where
  le_lastId : k ≤ q.lastId
  isClaimed_iff : ∀ e ∈ q.entries, e.isClaimed = true ↔ e.task.id ≤ k

/-- Nothing of a new queue is claimed. -/
theorem isClaimedUpTo_empty : IsClaimedUpTo {} 0 := ⟨Nat.le_refl 0, by simp⟩

/-- Operations other than claims leave the watermark where it is. -/
theorem IsClaimedUpTo.perform {q : Queue} {k : TaskId} (h : q.IsClaimedUpTo k) {c : QueueCall}
    (hclaim : ∀ now, c ≠ .claim now) : (q.perform c).2.IsClaimedUpTo k := by
  by_cases hadd : ∃ d, c = .add d
  · obtain ⟨d, rfl⟩ := hadd
    refine ⟨Nat.le_succ_of_le h.le_lastId, ?_⟩
    intro e he
    rcases List.mem_append.mp he with hold | hnew
    · exact h.isClaimed_iff e hold
    · obtain rfl := List.mem_singleton.mp hnew
      have hlate : ¬ q.lastId + 1 ≤ k := Nat.not_le_of_lt (Nat.lt_succ_of_le h.le_lastId)
      simpa [Entry.isClaimed] using hlate
  · obtain ⟨hentries, hlast⟩ := q.perform_sublist (not_exists.mp hadd) hclaim
    exact ⟨hlast ▸ h.le_lastId, fun e he => h.isClaimed_iff e (hentries.subset he)⟩

/-- A row of operations without claims leaves the watermark where it is. -/
theorem ReachesUnclaiming.isClaimedUpTo {q q' : Queue} (h : q.ReachesUnclaiming q') {k : TaskId}
    (hk : q.IsClaimedUpTo k) : q'.IsClaimedUpTo k := by
  obtain ⟨cs, hcs, rfl⟩ := h
  induction cs generalizing q with
  | nil => exact hk
  | cons c cs ih =>
    have hfirst := hk.perform fun now => hcs c List.mem_cons_self now
    exact ih hfirst fun d hd => hcs d (List.mem_cons_of_mem _ hd)

/-- A claim takes an entry that nobody held, and there was none below it. -/
theorem claim_is_lowest {q q' : Queue} (hq : q.IsOrdered) {now deadline : Time} {t : Task}
    (h : q.claim now = some (t, deadline, q')) :
    (∃ e ∈ q.entries, e.task = t ∧ e.isClaimed = false) ∧
      ∀ e ∈ q.entries, e.isClaimed = false → t.id ≤ e.task.id := by
  obtain ⟨before, e, behind, hentries, hbefore, hfree, rfl, _, _⟩ := exists_of_claim h
  refine ⟨⟨e, by simp [hentries], rfl, hfree⟩, ?_⟩
  intro e' he' hfree'
  have hincreasing := hq.increasing
  rw [hentries] at he' hincreasing
  rcases List.mem_append.mp he' with hbelow | habove
  · exact absurd (hbefore e' hbelow) (by simp [hfree'])
  · rcases List.mem_cons.mp habove with rfl | hbehind
    · exact Nat.le_refl _
    · have hlater := (List.pairwise_append.mp hincreasing).2.1
      exact Nat.le_of_lt (List.rel_of_pairwise_cons hlater hbehind)

/-- A claim moves the watermark up to the task that it takes. -/
theorem IsClaimedUpTo.claim {q q' : Queue} {k : TaskId} (h : q.IsClaimedUpTo k)
    (hq : q.IsOrdered) {now deadline : Time} {t : Task}
    (hclaim : q.claim now = some (t, deadline, q')) : k < t.id ∧ q'.IsClaimedUpTo t.id := by
  obtain ⟨before, e, behind, hentries, hbefore, hfree, rfl, hclaimed, hlast⟩ :=
    exists_of_claim hclaim
  have hmem : e ∈ q.entries := by simp [hentries]
  have hincreasing := hq.increasing
  rw [hentries, List.pairwise_append] at hincreasing
  obtain ⟨_, hbehind, hcross⟩ := hincreasing
  have habove : k < e.task.id := by
    apply Nat.lt_of_not_le
    intro hle
    exact absurd ((h.isClaimed_iff e hmem).mpr hle) (by simp [hfree])
  refine ⟨habove, hlast ▸ hq.issued e hmem, ?_⟩
  intro e' he'
  rw [hclaimed] at he'
  rcases List.mem_append.mp he' with hlow | hhigh
  · have hlt : e'.task.id < e.task.id := hcross e' hlow e List.mem_cons_self
    exact iff_of_true (hbefore e' hlow) (Nat.le_of_lt hlt)
  · rcases List.mem_cons.mp hhigh with rfl | hlater
    · exact iff_of_true rfl (Nat.le_refl _)
    · -- What stands behind the claimed entry was above the old watermark already.
      have hlt : e.task.id < e'.task.id := List.rel_of_pairwise_cons hbehind hlater
      have hqueued : e' ∈ q.entries := by simp [hentries, hlater]
      rw [h.isClaimed_iff e' hqueued]
      exact iff_of_false (Nat.not_le_of_lt (Nat.lt_trans habove hlt)) (Nat.not_le_of_lt hlt)

end Queue

namespace Moment

variable {m : Moment} {k : TaskId}

/-! ## One event -/

/-- A poll that offers a task has claimed it in the reaped queue. -/
theorem exists_claim_of_poll {t : Task} (h : (m.broker.poll m.now).1 = some t) :
    ∃ deadline q, (m.broker.reap m.now).queue.claim m.now = some (t, deadline, q) ∧
      (m.step .poll).2.broker.queue = q := by
  simp only [step, Broker.poll] at h ⊢
  cases hclaim : (m.broker.reap m.now).queue.claim m.now with
  | none => simp [hclaim] at h
  | some r =>
    obtain ⟨t', deadline, q⟩ := r
    rw [hclaim] at h
    obtain rfl := Option.some.inj h
    exact ⟨deadline, q, rfl, rfl⟩

/-- A poll offers nothing exactly when every entry of the reaped queue is claimed. -/
theorem poll_eq_none_iff :
    (m.broker.poll m.now).1 = none ↔
      ∀ e ∈ (m.broker.reap m.now).queue.entries, e.isClaimed = true := by
  rw [← Queue.claim_eq_none_iff _ m.now]
  simp only [Broker.poll]
  cases (m.broker.reap m.now).queue.claim m.now <;> simp

/-- Only a poll offers anything. -/
theorem eq_poll_of_offered {ev : Event} {t? : Option Task} (h : (m.step ev).1 = .offered t?) :
    ev = .poll := by
  cases ev with
  | poll => rfl
  | submit text owner =>
    simp only [step] at h
    split at h <;> contradiction
  | report r =>
    simp only [step] at h
    split at h <;> contradiction
  | reclaim id => contradiction
  | wait ms => contradiction

/-- An event that offers a task moves the watermark up to it. -/
theorem isClaimedUpTo_step_of_offered (hm : m.broker.IsOrdered)
    (hk : m.broker.queue.IsClaimedUpTo k) {ev : Event} {t : Task}
    (h : (m.step ev).1 = .offered (some t)) :
    k < t.id ∧ (m.step ev).2.broker.queue.IsClaimedUpTo t.id := by
  cases ev with
  | poll =>
    obtain ⟨deadline, q, hclaim, hqueue⟩ := exists_claim_of_poll (Reply.offered.inj h)
    have hreap := Broker.proceeds_reap m.now m.broker
    rw [hqueue]
    exact (hreap.1.isClaimedUpTo hk).claim (hreap.isOrdered hm.queue) hclaim
  | submit text owner =>
    simp only [step] at h
    split at h <;> contradiction
  | report r =>
    simp only [step] at h
    split at h <;> contradiction
  | reclaim id => contradiction
  | wait ms => contradiction

/-- An event that offers no task leaves the watermark where it is. -/
theorem isClaimedUpTo_step_of_not_offered (hm : m.broker.IsOrdered)
    (hk : m.broker.queue.IsClaimedUpTo k) {ev : Event}
    (h : ∀ t, (m.step ev).1 ≠ .offered (some t)) :
    (m.step ev).2.broker.queue.IsClaimedUpTo k := by
  by_cases hpoll : ev = .poll
  · subst hpoll
    have hreap := Broker.proceeds_reap m.now m.broker
    have hreaped := hreap.1.isClaimedUpTo hk
    simp only [step, Broker.poll] at h ⊢
    cases hclaim : (m.broker.reap m.now).queue.claim m.now with
    | none => exact hreaped
    | some r => exact absurd (by rw [hclaim]) (h r.1)
  · exact ((step_keeps_order hm ev).2.2 hpoll).isClaimedUpTo hk

/-- What is claimed after an event was claimed before, or is what the event offers. -/
theorem mem_or_offered_of_step (hm : m.broker.IsOrdered) (ev : Event) {q : Entry}
    (hq : q ∈ (m.step ev).2.broker.queue.entries) (hclaimed : q.isClaimed = true) :
    q ∈ m.broker.queue.entries ∨ (m.step ev).1 = .offered (some q.task) := by
  -- A row without claims brings up no claimed entry of its own.
  have hkept {queue : Queue} (hqueue : m.broker.queue.ReachesUnclaiming queue)
      (hmem : q ∈ queue.entries) : q ∈ m.broker.queue.entries := by
    rcases hqueue.mem_or_new hmem with hold | ⟨_, hfree⟩
    · exact hold
    · exact absurd hclaimed (by simp [hfree])
  by_cases hpoll : ev = .poll
  · subst hpoll
    have hreap := (Broker.proceeds_reap m.now m.broker).1
    simp only [step, Broker.poll] at hq ⊢
    cases hclaim : (m.broker.reap m.now).queue.claim m.now with
    | none =>
      rw [hclaim] at hq
      exact .inl (hkept hreap hq)
    | some r =>
      obtain ⟨t, deadline, queue⟩ := r
      obtain ⟨before, e, behind, hentries, _, _, _, hafter, _⟩ := Queue.exists_of_claim hclaim
      rw [hclaim] at hq
      replace hq : q ∈ queue.entries := hq
      rw [hafter] at hq
      have hsplit : q = ⟨t, some deadline⟩ ∨ q ∈ (m.broker.reap m.now).queue.entries := by
        rw [hentries]
        simp only [List.mem_append, List.mem_cons] at hq ⊢
        tauto
      rcases hsplit with rfl | hold
      · exact .inr rfl
      · exact .inl (hkept hreap hold)
  · exact .inl (hkept ((step_keeps_order hm ev).2.2 hpoll) hq)

/-! ## A run -/

/-- What a run offers comes from its first event or from the rest. -/
theorem offers_cons_of_offered {ev : Event} {t : Task} (h : (m.step ev).1 = .offered (some t))
    (es : List Event) : m.offers (ev :: es) = t.id :: (m.step ev).2.offers es := by
  simp [offers, trace, h]

/-- An event that offers no task adds nothing to what a run offers. -/
theorem offers_cons_of_not_offered {ev : Event} (h : ∀ t, (m.step ev).1 ≠ .offered (some t))
    (es : List Event) : m.offers (ev :: es) = (m.step ev).2.offers es := by
  unfold offers
  rw [trace, List.filterMap_cons_none]
  split
  · next t ht => exact absurd ht (h t)
  · rfl

/-- A run offers tasks above the watermark, in the order of their numbers. -/
theorem offers_above_watermark (hm : m.broker.IsConsistent) (hk : m.broker.queue.IsClaimedUpTo k)
    (es : List Event) : (k :: m.offers es).Pairwise (· < ·) := by
  induction es generalizing m k with
  | nil => exact List.pairwise_singleton _ k
  | cons ev es ih =>
    have hnext := isConsistent_step hm ev
    by_cases hoffer : ∃ t, (m.step ev).1 = .offered (some t)
    · obtain ⟨t, ht⟩ := hoffer
      obtain ⟨hlt, hclaimed⟩ := isClaimedUpTo_step_of_offered hm.isOrdered hk ht
      have hrest := ih hnext hclaimed
      rw [offers_cons_of_offered ht]
      refine List.pairwise_cons.mpr ⟨fun id hid => ?_, hrest⟩
      rcases List.mem_cons.mp hid with rfl | hid
      · exact hlt
      · exact Nat.lt_trans hlt (List.rel_of_pairwise_cons hrest hid)
    · have hnone := not_exists.mp hoffer
      rw [offers_cons_of_not_offered hnone]
      exact ih hnext (isClaimedUpTo_step_of_not_offered hm.isOrdered hk hnone)

/-- A run leaves a watermark at which all that it has offered lies below. -/
theorem exists_watermark_after (hm : m.broker.IsConsistent)
    (hk : m.broker.queue.IsClaimedUpTo k) (es : List Event) :
    ∃ k', k ≤ k' ∧ (m.after es).broker.queue.IsClaimedUpTo k' ∧ ∀ id ∈ m.offers es, id ≤ k' := by
  induction es generalizing m k with
  | nil => exact ⟨k, Nat.le_refl k, hk, by simp [offers, trace]⟩
  | cons ev es ih =>
    have hnext := isConsistent_step hm ev
    by_cases hoffer : ∃ t, (m.step ev).1 = .offered (some t)
    · obtain ⟨t, ht⟩ := hoffer
      obtain ⟨hlt, hclaimed⟩ := isClaimedUpTo_step_of_offered hm.isOrdered hk ht
      obtain ⟨k', hle, hk', hbelow⟩ := ih hnext hclaimed
      refine ⟨k', Nat.le_trans (Nat.le_of_lt hlt) hle, hk', ?_⟩
      rw [offers_cons_of_offered ht]
      exact List.forall_mem_cons.mpr ⟨hle, hbelow⟩
    · have hnone := not_exists.mp hoffer
      rw [offers_cons_of_not_offered hnone]
      exact ih hnext (isClaimedUpTo_step_of_not_offered hm.isOrdered hk hnone)

/-- A reachable queue has a watermark. -/
theorem Reachable.exists_watermark (h : m.Reachable) : ∃ k, m.broker.queue.IsClaimedUpTo k := by
  obtain ⟨costs, events, rfl⟩ := h
  obtain ⟨k, _, hk, _⟩ := exists_watermark_after (m := { broker := { costs := costs } })
    (Broker.isConsistent_new costs) Queue.isClaimedUpTo_empty events
  exact ⟨k, hk⟩

/-- The tasks of a consistent broker belong to expressions that are still open. -/
theorem exists_open_of_queued {b : Broker} (hb : b.IsConsistent) {q : Entry}
    (hq : q ∈ b.queue.entries) :
    ∃ e ∈ b.table.expressions, e.id = q.task.expression ∧ e.status = .processing := by
  obtain ⟨e, hget, hid, hopen, _⟩ := hb.exists_waiting hq
  exact ⟨e, (Table.mem_of_get? hget).1, hid, Expression.isFinal_eq_false_iff.mp hopen⟩

/-- Over a whole run of a new broker the offered numbers strictly increase. A poll at the end of
any run offers the lowest task that nobody holds once lapsed claims are reaped, it offers none
exactly when every task is held, and the expression of the task that it offers is being
processed. -/
theorem offers_in_order (costs : Costs) (events : List Event) :
    let start : Moment := { broker := { costs := costs } }
    let m := start.after events
    let reaped := (m.broker.reap m.now).queue.entries
    (start.offers events).Pairwise (· < ·) ∧
      ((m.broker.poll m.now).1 = none ↔ ∀ q ∈ reaped, q.isClaimed = true) ∧
      ∀ t, (m.broker.poll m.now).1 = some t →
        (∃ q ∈ reaped, q.task = t ∧ q.isClaimed = false) ∧
        (∀ q ∈ reaped, q.isClaimed = false → t.id ≤ q.task.id) ∧
        ∃ e ∈ (m.step .poll).2.broker.table.expressions,
          e.id = t.expression ∧ e.status = .processing := by
  intro start m reaped
  have hm : m.broker.IsConsistent := isConsistent_after (Broker.isConsistent_new costs) events
  refine ⟨?_, poll_eq_none_iff, fun t ht => ?_⟩
  · have hall := offers_above_watermark (m := start) (Broker.isConsistent_new costs)
      Queue.isClaimedUpTo_empty events
    exact (List.pairwise_cons.mp hall).2
  · obtain ⟨deadline, q, hclaim, hqueue⟩ := exists_claim_of_poll ht
    have hreaped := (Broker.proceeds_reap m.now m.broker).isOrdered hm.queue
    obtain ⟨hfree, hlowest⟩ := Queue.claim_is_lowest hreaped hclaim
    refine ⟨hfree, hlowest, ?_⟩
    -- The claimed task is still queued, so its expression is open after the poll as well.
    have hclaimed : ∃ q' ∈ (m.step .poll).2.broker.queue.entries, q'.task = t := by
      obtain ⟨before, _, behind, _, _, _, _, hentries, _⟩ := Queue.exists_of_claim hclaim
      exact ⟨⟨t, some deadline⟩, by simp [hqueue, hentries], rfl⟩
    obtain ⟨q', hq', rfl⟩ := hclaimed
    exact exists_open_of_queued (isConsistent_step hm .poll) hq'

end Moment

end Piecework
