import Piecework.Proofs.Fates
import Piecework.Proofs.TaskCosts

/-!
# Tasks in hand

A task that somebody took from the broker and works on for exactly its cost is in hand.
If all claims are such, and none is worked on for longer, then no claim lapses: what is in
hand is still queued under the claim, or its expression has failed for another reason. One
event after the other keeps it so, as long as only tasks in hand are reported on.
-/

namespace Piecework

/-- Twice the cost of every operator fits a word. -/
def Costs.FitTwice (c : Costs) : Prop := ∀ op, 2 * c.cost op < UInt64.size

/-- A claim lasts for longer than the task costs, if twice the cost fits a word. -/
theorem Task.claimWindow_eq {t : Task} (h : 2 * t.cost < UInt64.size) :
    t.claimWindow = max 1 (2 * t.cost) := by
  rw [claimWindow, Nat.min_eq_left (show 2 * t.cost ≤ wordMax from Nat.le_pred_of_lt h)]

theorem Task.cost_lt_claimWindow {t : Task} (h : 2 * t.cost < UInt64.size) :
    t.cost < t.claimWindow := by
  rw [claimWindow_eq h]
  omega

/-- No arithmetic error is worded like a lapsed claim. -/
theorem ArithmeticError.message_ne (e : ArithmeticError) : e.message ≠ Broker.timeoutReason := by
  cases e <;> decide

/-- A worker that computes a task never reports it as timed out. -/
theorem Task.failure_compute_ne (t : Task) : t.compute.failure ≠ some Broker.timeoutReason := by
  unfold compute
  split
  · simp [Report.failure]
  · next e _ => exact fun h => e.message_ne (Option.some.inj (Option.filter_eq_some_iff.mp h).1)

namespace Moment

variable {m : Moment} {t : Task} {w : Wait} {ev : Event}

/-! ## One task -/

/-- A task is in hand until its cost is spent. It is queued under its claim for that time, unless
its expression fails. -/
structure HasInHand (m : Moment) (t : Task) (w : Wait) : Prop where
  due_eq : w.due = w.since + t.cost
  now_le : m.now ≤ w.due
  cost_eq : t.cost = m.broker.costs.cost t.operator
  queued_or_failed : ⟨t, some (w.since + t.claimWindow)⟩ ∈ m.broker.queue.entries ∨
    (m.broker.share t.expression).HasFailed

namespace HasInHand

/-- A poll leaves a task in hand, as no claim has lapsed. -/
theorem poll (h : m.HasInHand t w) (hm : m.broker.IsConsistent)
    (htimely : m.broker.queue.IsTimely m.now) : (m.step .poll).2.HasInHand t w where
  due_eq := h.due_eq
  now_le := h.now_le
  cost_eq := by rw [costs_step, h.cost_eq]
  queued_or_failed := by
    refine h.queued_or_failed.imp (fun hqueued => ?_) fun hfailed =>
      hasFailed_step hm.isOrdered hfailed .poll
    rcases entries_poll_of_isTimely hm htimely with
      ⟨_, hentries⟩ | ⟨t', before, behind, _, hrow, hentries⟩
    · rwa [hentries]
    · rw [hrow] at hqueued
      rw [hentries]
      -- The entry that the poll claims is another one, as this one was claimed already.
      have hother : (⟨t, some (w.since + t.claimWindow)⟩ : Entry) ≠ ⟨t', none⟩ := by simp
      simp only [List.mem_append, List.mem_cons, hother, false_or] at hqueued
      exact List.mem_append.mpr (hqueued.imp_right (List.mem_cons_of_mem _))

/-- Any other event leaves a task in hand, unless it reports on the task or a claim lapses. -/
theorem step (h : m.HasInHand t w) (hm : m.broker.IsConsistent) (hpoll : ev ≠ .poll)
    (hwait : ∀ ms, ev ≠ .wait ms) (hlapsed : m.overdue ev = [])
    (hother : ∀ r, ev = .report r → t.id ≠ r.id) : (m.step ev).2.HasInHand t w where
  due_eq := h.due_eq
  now_le := (now_step m hwait).symm ▸ h.now_le
  cost_eq := by rw [costs_step, h.cost_eq]
  queued_or_failed := by
    rcases h.queued_or_failed with hqueued | hfailed
    · exact mem_or_hasFailed_step hm hpoll hlapsed hqueued hother
    · exact .inr (hasFailed_step hm.isOrdered hfailed ev)

/-- Time passes over a task in hand up to its end. -/
theorem wait (h : m.HasInHand t w) {ms : Nat} (hms : m.now + ms ≤ w.due) :
    (m.step (.wait ms)).2.HasInHand t w :=
  ⟨h.due_eq, hms, h.cost_eq, h.queued_or_failed⟩

end HasInHand

/-! ## All claims -/

/-- The claims of a broker are on tasks in hand, none of which was taken twice. -/
structure Holds (m : Moment) (works : List (Task × Wait)) : Prop where
  inHand : ∀ p ∈ works, m.HasInHand p.1 p.2
  held : ∀ q ∈ m.broker.queue.entries, ∀ d, q.deadline = some d →
    ∃ w, (q.task, w) ∈ works ∧ d = w.since + q.task.claimWindow
  distinct : (works.map (·.1.id)).Nodup
  watermark : ∃ k, m.broker.queue.IsClaimedUpTo k ∧ ∀ p ∈ works, p.1.id ≤ k

/-- The claims of a broker are on tasks in hand, its tasks cost what their operators do, twice of
which fits a word, and no expression has timed out. -/
structure IsServed (m : Moment) (works : List (Task × Wait)) : Prop extends m.Holds works where
  consistent : m.broker.IsConsistent
  priced : m.broker.IsPriced
  fit : m.broker.costs.FitTwice
  untimed : ∀ x, (m.broker.share x).IsUntimed

/-- A new broker serves nobody yet. -/
theorem isServed_new {costs : Costs} (h : costs.FitTwice) (now : Time) :
    IsServed ⟨now, { costs := costs }⟩ [] where
  consistent := Broker.isConsistent_new costs
  priced := fun _ hq => absurd hq List.not_mem_nil
  fit := h
  inHand := fun _ hp => absurd hp List.not_mem_nil
  held := fun _ hq => absurd hq List.not_mem_nil
  distinct := List.nodup_nil
  watermark := ⟨0, Queue.isClaimedUpTo_empty, fun _ hp => absurd hp List.not_mem_nil⟩
  untimed := fun _ _ he => absurd he (by simp [Broker.share, Table.get?])

namespace IsServed

variable {works works' : List (Task × Wait)}

/-- The order of the tasks in hand does not matter. -/
theorem perm (h : m.IsServed works) (hperm : works.Perm works') : m.IsServed works' :=
  { h with
    inHand := fun p hp => h.inHand p (hperm.mem_iff.mpr hp)
    held := fun q hq d hd =>
      (h.held q hq d hd).imp fun _ hw => ⟨hperm.mem_iff.mp hw.1, hw.2⟩
    distinct := (hperm.map _).nodup_iff.mp h.distinct
    watermark :=
      h.watermark.imp fun _ hk => ⟨hk.1, fun p hp => hk.2 p (hperm.mem_iff.mpr hp)⟩ }

/-- Twice the cost of a task in hand fits a word. -/
theorem fit_of_inHand (h : m.IsServed works) {p : Task × Wait} (hp : p ∈ works) :
    2 * p.1.cost < UInt64.size := by
  rw [(h.inHand p hp).cost_eq]
  exact h.fit _

/-- Every claim has time left. -/
theorem isTimely (h : m.IsServed works) : m.broker.queue.IsTimely m.now := by
  intro q hq d hd
  obtain ⟨w, hw, rfl⟩ := h.held q hq d hd
  have hend : m.now ≤ w.since + q.task.cost := (h.inHand _ hw).due_eq ▸ (h.inHand _ hw).now_le
  exact Nat.lt_of_le_of_lt hend
    (Nat.add_lt_add_left (Task.cost_lt_claimWindow (h.fit_of_inHand hw)) _)

/-- What is queued under the number of a task in hand is that task under its claim. -/
theorem eq_of_id_eq (h : m.IsServed works) (hp : (t, w) ∈ works) {q : Entry}
    (hq : q ∈ m.broker.queue.entries) (hid : q.task.id = t.id) :
    q = ⟨t, some (w.since + t.claimWindow)⟩ := by
  obtain ⟨k, hk, hbelow⟩ := h.watermark
  have hclaimed : q.isClaimed = true := (hk.isClaimed_iff q hq).mpr (hid ▸ hbelow (t, w) hp)
  obtain ⟨d, hd⟩ := Option.isSome_iff_exists.mp hclaimed
  obtain ⟨w', hw', rfl⟩ := h.held q hq d hd
  obtain ⟨rfl, rfl⟩ := Prod.mk.inj (List.inj_on_of_nodup_map h.distinct hw' hp hid)
  obtain ⟨t, deadline⟩ := q
  exact congrArg _ hd

/-- A report on a task in hand is accepted while the task is queued under its claim, and otherwise
the expression of the task has failed. -/
theorem report_accepted_or_failed (h : m.IsServed works) (hp : (t, w) ∈ works) :
    (m.broker.report t.compute).1 = .ok () ∧
        ⟨t, some (w.since + t.claimWindow)⟩ ∈ m.broker.queue.entries ∨
      (m.broker.report t.compute).1 ≠ .ok () ∧ (m.broker.share t.expression).HasFailed := by
  by_cases hok : (m.broker.report t.compute).1 = .ok ()
  · obtain ⟨q, hq, hid⟩ := (report_eq_ok_iff h.consistent _).mp hok
    exact .inl ⟨hok, h.eq_of_id_eq hp hq (hid.trans t.compute_id) ▸ hq⟩
  · refine .inr ⟨hok, (h.inHand _ hp).queued_or_failed.resolve_left fun hqueued => hok ?_⟩
    exact (report_eq_ok_iff h.consistent _).mpr ⟨_, hqueued, t.compute_id.symm⟩

/-- No event times a claim out. -/
theorem overdue_eq_nil (h : m.IsServed works) (ev : Event) : m.overdue ev = [] := by
  have htimely := Queue.isTimely_iff.mp h.isTimely
  cases ev with
  | poll => simpa [overdue] using htimely
  | reclaim id => simpa [overdue] using fun q hq _ => htimely q hq
  | submit _ _ => rfl
  | report _ => rfl
  | wait _ => rfl

/-- An event leaves a broker served if what is in hand then holds its claims, unless a report says
that a claim has lapsed. -/
theorem step (h : m.IsServed works)
    (hreport : ∀ r, ev = .report r → r.failure ≠ some Broker.timeoutReason)
    (hholds : (m.step ev).2.Holds works') : (m.step ev).2.IsServed works' where
  toHolds := hholds
  consistent := isConsistent_step h.consistent ev
  priced := isPriced_step h.consistent.isOrdered h.priced ev
  fit := by rw [costs_step]; exact h.fit
  untimed := fun x => by
    obtain ⟨_, hchange, _⟩ := exists_change h.consistent.isOrdered ev x
    exact hchange.isUntimed (h.untimed x) (by simp [h.overdue_eq_nil]) hreport

/-- A claim that is there after an event was there before, unless the event is a poll. -/
theorem exists_work (h : m.IsServed works) (hpoll : ev ≠ .poll) {q : Entry}
    (hq : q ∈ (m.step ev).2.broker.queue.entries) {d : Time} (hd : q.deadline = some d) :
    ∃ w, (q.task, w) ∈ works ∧ d = w.since + q.task.claimWindow := by
  have hclaimed : q.isClaimed = true := by simp [Entry.isClaimed, hd]
  rcases mem_or_offered_of_step h.consistent.isOrdered ev hq hclaimed with hold | hoffered
  · exact h.held q hold d hd
  · exact absurd (eq_poll_of_offered hoffered) hpoll

/-- An event that is no poll leaves the tasks in hand that it does not report on. -/
theorem holds_step (h : m.IsServed works) (hpoll : ev ≠ .poll) (hwait : ∀ ms, ev ≠ .wait ms)
    (hkept : works'.Sublist works) (hother : ∀ p ∈ works', ∀ r, ev = .report r → p.1.id ≠ r.id)
    (hheld : ∀ q ∈ (m.step ev).2.broker.queue.entries, q.isClaimed = true →
      ∀ w, (q.task, w) ∈ works → (q.task, w) ∈ works') : (m.step ev).2.Holds works' where
  inHand := fun p hp => (h.inHand p (hkept.subset hp)).step h.consistent hpoll hwait
    (h.overdue_eq_nil ev) (hother p hp)
  held := fun q hq d hd => (h.exists_work hpoll hq hd).imp fun w hw =>
    ⟨hheld q hq (by simp [Entry.isClaimed, hd]) w hw.1, hw.2⟩
  distinct := h.distinct.sublist (hkept.map _)
  watermark := h.watermark.imp fun _ hk =>
    ⟨isClaimedUpTo_step_of_not_offered h.consistent.isOrdered hk.1 fun _ hoffered =>
      hpoll (eq_poll_of_offered hoffered), fun p hp => hk.2 p (hkept.subset hp)⟩

/-- A submission leaves the tasks in hand. -/
theorem submit (h : m.IsServed works) (text : String) (owner : Nat) :
    (m.step (.submit text owner)).2.IsServed works :=
  h.step (by simp) (h.holds_step (by simp) (by simp) (.refl _) (by simp) fun _ _ _ _ hw => hw)

/-- A report on a task in hand takes it from there. -/
theorem report (h : m.IsServed ((t, w) :: works)) :
    (m.step (.report t.compute)).2.IsServed works := by
  have hdistinct := List.nodup_cons.mp h.distinct
  refine h.step ?_ (h.holds_step (by simp) (by simp) (List.sublist_cons_self _ _) ?_ ?_)
  · rintro _ ⟨⟩
    exact t.failure_compute_ne
  · rintro p hp _ ⟨⟩ hid
    exact hdistinct.1 (List.mem_map.mpr ⟨p, hp, hid.trans t.compute_id⟩)
  · intro q hq hclaimed w' hw'
    rw [step_report_broker] at hq
    have hne := ne_of_mem_report h.consistent hq hclaimed
    rw [t.compute_id] at hne
    exact (List.mem_cons.mp hw').resolve_left fun heq => hne (congrArg (·.1.id) heq)

/-- A poll that offers nothing leaves the tasks in hand. -/
theorem miss (h : m.IsServed works) (hmiss : (m.step .poll).1 = .offered none) :
    (m.step .poll).2.IsServed works := by
  have hentries : (m.step .poll).2.broker.queue.entries = m.broker.queue.entries := by
    rcases entries_poll_of_isTimely h.consistent h.isTimely with
      ⟨_, hentries⟩ | ⟨t, _, _, hoffered, _⟩
    · exact hentries
    · exact absurd (hmiss.symm.trans hoffered) (by simp)
  refine h.step (by simp) ⟨fun p hp => ?_, ?_, h.distinct, ?_⟩
  · exact (h.inHand p hp).poll h.consistent h.isTimely
  · rw [hentries]
    exact h.held
  · exact h.watermark.imp fun _ hk =>
      ⟨isClaimedUpTo_step_of_not_offered h.consistent.isOrdered hk.1 (by simp [hmiss]), hk.2⟩

/-- A poll that offers a task puts it in the hands of the one who polls. -/
theorem fetch (h : m.IsServed works) (hoffered : (m.step .poll).1 = .offered (some t))
    (hsince : w.since = m.now) (hdue : w.due = m.now + t.cost) :
    (m.step .poll).2.IsServed ((t, w) :: works) := by
  obtain ⟨k, hk, hbelow⟩ := h.watermark
  obtain ⟨habove, hclaimed⟩ := isClaimedUpTo_step_of_offered h.consistent.isOrdered hk hoffered
  obtain ⟨before, behind, hrow, hentries⟩ :=
    exists_claim_of_offered h.consistent h.isTimely hoffered
  have hfetched : (m.step .poll).2.HasInHand t w := by
    refine ⟨by rw [hdue, hsince], ?_, ?_, .inl ?_⟩
    · rw [hdue]
      exact Nat.le_add_right _ _
    · rw [costs_step]
      exact h.priced ⟨t, none⟩ (by simp [hrow])
    · simp [hentries, hsince]
  refine h.step (by simp) ⟨?_, fun q hq d hd => ?_, ?_, t.id, hclaimed, ?_⟩
  · exact List.forall_mem_cons.mpr
      ⟨hfetched, fun p hp => (h.inHand p hp).poll h.consistent h.isTimely⟩
  · have hcases : q = ⟨t, some (m.now + t.claimWindow)⟩ ∨ q ∈ m.broker.queue.entries := by
      simp only [hentries, hrow, List.mem_append, List.mem_cons] at hq ⊢
      tauto
    rcases hcases with rfl | hold
    · exact ⟨w, List.mem_cons_self, by rw [hsince]; exact (Option.some.inj hd).symm⟩
    · exact (h.held q hold d hd).imp fun _ hw => ⟨List.mem_cons_of_mem _ hw.1, hw.2⟩
  · refine List.nodup_cons.mpr ⟨fun hmem => ?_, h.distinct⟩
    obtain ⟨p, hp, hid⟩ := List.mem_map.mp hmem
    exact absurd (hbelow p hp) (Nat.not_le_of_lt (Nat.lt_of_lt_of_eq habove hid.symm))
  · exact List.forall_mem_cons.mpr
      ⟨Nat.le_refl _, fun p hp => Nat.le_trans (hbelow p hp) (Nat.le_of_lt habove)⟩

/-- Time passes up to the end of no task. -/
theorem wait (h : m.IsServed works) {ms : Nat} (hms : ∀ p ∈ works, m.now + ms ≤ p.2.due) :
    (m.step (.wait ms)).2.IsServed works :=
  { h with inHand := fun p hp => (h.inHand p hp).wait (hms p hp) }

end IsServed

end Moment

end Piecework
