import Piecework.Proofs.Isolation
import Piecework.Proofs.VirtualTime

/-!
# Claims and their deadlines

A sleep rings the watchdogs whose deadlines come, the earliest first. Each one fails its
expression and so takes the watchdogs of that expression's other tasks away, but every
claim that lapses before the sleep ends belongs to an expression that fails in it, and no
other expression does. So a sleep leaves the queue and the table that reaping at its end
would leave, and no claim outlasts its deadline unless the clock is moved past it.
-/

namespace Piecework

/-- A claim has lapsed when its deadline is not after the moment. -/
theorem Entry.hasLapsed_iff {now : Time} {q : Entry} :
    q.hasLapsed now = true ↔ ∃ d, q.deadline = some d ∧ d ≤ now := by
  simp [hasLapsed, Option.any_eq_true]

namespace Broker

variable {b : Broker}

/-! ## Reaping -/

/-- Reaping fails the shares of the expressions with a lapsed claim. -/
theorem share_reap_of_lapsing (hq : b.queue.IsOrdered) (now : Time) (y : ExpressionId) :
    (b.reap now).share y =
      if y ∈ b.queue.lapsing now then (b.share y).fail timeoutReason else b.share y :=
  (share_reap hq now y).trans (if_congr Queue.mem_lapsing_iff.symm rfl rfl)

/-- Reaping leaves no lapsed claim. -/
theorem not_lapsed_of_mem_reap (hq : b.queue.IsOrdered) {now : Time} {q : Entry}
    (h : q ∈ (b.reap now).queue.entries) : q.hasLapsed now = false := by
  rw [entries_reap hq] at h
  obtain ⟨hmem, hkept⟩ := List.mem_filter.mp h
  by_contra hlapsed
  exact of_decide_eq_true hkept
    (Queue.mem_lapsing_iff.mpr ⟨q, hmem, Bool.of_not_eq_false hlapsed, rfl⟩)

/-- Reaping fails the rows of the expressions with a lapsed claim. -/
theorem expressions_reap (hb : b.IsConsistent) (now : Time) :
    (b.reap now).table.expressions = b.table.expressions.map fun e =>
      if e.id ∈ b.queue.lapsing now then e.fail timeoutReason else e := by
  have hproceeds := proceeds_reap now b
  refine hb.table.expressions_eq_map (hproceeds.2.isNumbered hb.table) hproceeds.2.lastId_eq
    fun x => ?_
  have hshare := congrArg Share.expression (share_reap_of_lapsing hb.queue now x)
  refine hshare.trans ?_
  cases hget : b.table.get? x with
  | none => split <;> simp [Share.fail, share, hget]
  | some e =>
    obtain ⟨_, rfl⟩ := Table.mem_of_get? hget
    split
    · next hlapsing => simp [Share.fail, share, hget, hlapsing]
    · next hkept => simp [share, hget, hkept]

/-- An expression with a lapsed claim is open. -/
theorem isFinal_eq_false_of_lapsing (hb : b.IsConsistent) {now : Time} {e : Expression}
    (he : e ∈ b.table.expressions) (hdue : e.id ∈ b.queue.lapsing now) : e.isFinal = false := by
  obtain ⟨q, hq, _, hexpression⟩ := Queue.mem_lapsing_iff.mp hdue
  obtain ⟨e', hget, _, hopen, _⟩ := hb.exists_waiting hq
  rw [hexpression, hb.table.get?_eq_some he] at hget
  exact Option.some.inj hget ▸ hopen

/-- Reaping gives the rows of the expressions with a lapsed claim another status, and changes
nothing else in the rows. -/
theorem expressions_reap_of_lapsing (hb : b.IsConsistent) (now : Time) :
    (b.reap now).table.expressions = b.table.expressions.map fun e =>
      if e.id ∈ b.queue.lapsing now then { e with status := .failed timeoutReason } else e := by
  rw [expressions_reap hb]
  refine List.map_congr_left fun e he => ?_
  by_cases hdue : e.id ∈ b.queue.lapsing now
  · have hopen := isFinal_eq_false_of_lapsing hb he hdue
    rw [if_pos hdue, if_pos hdue, Expression.fail, Expression.settle_of_open hopen]
  · rw [if_neg hdue, if_neg hdue]

/-! ## A watchdog that finds its claim lapsed -/

/-- A watchdog that finds its claim lapsed fails the share of its expression. -/
theorem share_reclaim_of_lapsed (hq : b.queue.IsOrdered) {q : Entry} (hmem : q ∈ b.queue.entries)
    {now : Time} (hlapsed : q.hasLapsed now = true) (y : ExpressionId) :
    (b.reclaim q.task.id now).share y =
      if y = q.task.expression then (b.share y).fail timeoutReason else b.share y := by
  refine (share_reclaim hq q.task.id now y).trans (if_congr ?_ rfl rfl)
  constructor
  · rintro ⟨q', hmem', hid, _, rfl⟩
    rw [hq.eq_of_id_eq hmem' hmem hid]
  · rintro rfl
    exact ⟨q, hmem, rfl, hlapsed, rfl⟩

/-- A watchdog that finds its claim lapsed takes out all tasks of its expression. -/
theorem entries_reclaim_of_lapsed (hq : b.queue.IsOrdered) {q : Entry}
    (hmem : q ∈ b.queue.entries) {now : Time} (hlapsed : q.hasLapsed now = true) :
    (b.reclaim q.task.id now).queue.entries =
      b.queue.entries.filter (·.task.expression ≠ q.task.expression) := by
  have hreclaimed := (proceeds_reclaim q.task.id now b).isOrdered hq
  have hkept : Queue.IsOrdered { b.queue with
      entries := b.queue.entries.filter (·.task.expression ≠ q.task.expression) } :=
    hq.of_sublist List.filter_sublist rfl
  refine hreclaimed.entries_eq hkept fun e => ?_
  rw [← mem_share_entries_iff, share_reclaim_of_lapsed hq hmem hlapsed]
  split
  · next hown => simp [Share.fail, hown]
  · next hother =>
    rw [mem_share_entries_iff]
    simp [hother]

/-- A watchdog that finds its claim lapsed leaves fewer claims. -/
theorem claimed_reclaim_lt (hq : b.queue.IsOrdered) {q : Entry} (hmem : q ∈ b.queue.entries)
    {now : Time} (hlapsed : q.hasLapsed now = true) :
    (b.reclaim q.task.id now).queue.claimed < b.queue.claimed := by
  have hclaimed : q.isClaimed = true := by
    cases hdeadline : q.deadline <;> simp_all [Entry.hasLapsed, Entry.isClaimed]
  have hgone : 0 < (b.queue.entries.filter fun e =>
      ! decide (e.task.expression ≠ q.task.expression)).countP (·.isClaimed) :=
    List.countP_pos_iff.mpr ⟨q, List.mem_filter.mpr ⟨hmem, by simp⟩, hclaimed⟩
  rw [Queue.claimed, Queue.claimed, entries_reclaim_of_lapsed hq hmem hlapsed,
    List.countP_eq_countP_filter_add b.queue.entries (·.isClaimed)
      (fun e => decide (e.task.expression ≠ q.task.expression))]
  exact Nat.lt_add_of_pos_right hgone

/-- A watchdog whose claim lapses before the broker is reaped makes no difference to the shares
that reaping leaves. -/
theorem share_reap_reclaim (hq : b.queue.IsOrdered) {q : Entry} (hmem : q ∈ b.queue.entries)
    {now limit : Time} (hnow : q.hasLapsed now = true) (hlimit : q.hasLapsed limit = true)
    (y : ExpressionId) :
    ((b.reclaim q.task.id now).reap limit).share y = (b.reap limit).share y := by
  have hreclaimed := (proceeds_reclaim q.task.id now b).isOrdered hq
  rw [share_reap_of_lapsing hreclaimed, share_reap_of_lapsing hq,
    share_reclaim_of_lapsed hq hmem hnow]
  by_cases hy : y = q.task.expression
  · have hlapsing : y ∈ b.queue.lapsing limit :=
      Queue.mem_lapsing_iff.mpr ⟨q, hmem, hlimit, hy.symm⟩
    rw [if_pos hy, if_pos hlapsing, Share.fail_fail, ite_self]
  · have hlapsing : y ∈ (b.reclaim q.task.id now).queue.lapsing limit ↔
        y ∈ b.queue.lapsing limit := by
      simp only [Queue.mem_lapsing_iff, entries_reclaim_of_lapsed hq hmem hnow, List.mem_filter,
        decide_eq_true_eq]
      grind
    simp only [if_neg hy, hlapsing]

end Broker

namespace Site

variable {s : Site}

/-- The watchdog of a claimed entry is among the alarms. -/
theorem exists_alarm_of_claimed {q : Entry} (hmem : q ∈ s.broker.queue.entries) {d : Time}
    (hd : q.deadline = some d) : ∃ a ∈ s.alarms, a.due = d :=
  ⟨⟨d, d - q.task.claimWindow, .watchdog q.task.id⟩,
    List.mem_append_left _ (List.mem_filterMap.mpr ⟨q, hmem, by simp [watchdog?, hd]⟩), rfl⟩

/-- Without stragglers every alarm is the watchdog of a claimed entry, due at its deadline. -/
theorem exists_claimed_of_alarm (hs : s.stragglers = []) {a : Alarm Callee}
    (ha : a ∈ s.alarms) :
    ∃ q ∈ s.broker.queue.entries, q.deadline = some a.due ∧ a.call = .watchdog q.task.id := by
  rw [alarms, hs, List.map_nil, List.append_nil, List.mem_filterMap] at ha
  obtain ⟨q, hmem, hwatchdog⟩ := ha
  obtain ⟨d, hd, rfl⟩ := Option.map_eq_some_iff.mp hwatchdog
  exact ⟨q, hmem, hd, rfl⟩

/-- A site has an alarm for each claim and for each straggler. -/
theorem length_alarms_eq (s : Site) :
    s.alarms.length = s.broker.queue.claimed + s.stragglers.length := by
  rw [alarms, List.length_append, List.length_map, List.length_filterMap_eq_countP]
  refine congrArg (· + _) (List.countP_congr fun q _ => ?_)
  simp [watchdog?, Entry.isClaimed]

/-- Without stragglers there are as many alarms as claims. -/
theorem length_alarms (hs : s.stragglers = []) :
    s.alarms.length = s.broker.queue.claimed := by
  rw [length_alarms_eq, hs]
  rfl

/-- A site without stragglers rings only claims that lapse by the limit, and goes on. -/
theorem proceeds_ringUntil (hs : s.stragglers = []) (limit : Time) (budget : Nat) (now : Time) :
    s.broker.Proceeds (s.ringUntil limit budget now).broker := by
  induction budget generalizing now s with
  | zero => exact .refl _
  | succ budget ih =>
    rw [ringUntil]
    split
    · exact .refl _
    · next a hfirst =>
      obtain ⟨q, _, _, hcall⟩ := exists_claimed_of_alarm hs (Alarm.first?_spec hfirst).1
      split
      · rw [hcall]
        exact (Broker.proceeds_reclaim q.task.id _ s.broker).trans
          (ih (stragglers_answer hs _ (.watchdog q.task.id)) _)
      · exact .refl _

/-- Ringing all alarms due by a limit leaves the shares that reaping at the limit leaves. -/
theorem share_ringUntil (hs : s.stragglers = []) (hq : s.broker.queue.IsOrdered) (limit : Time)
    {budget : Nat} (hbudget : s.broker.queue.claimed ≤ budget) (now : Time) (y : ExpressionId) :
    (s.ringUntil limit budget now).broker.share y = (s.broker.reap limit).share y := by
  -- Where nothing that is due by the limit is left, reaping finds nothing either.
  have hdone {s : Site} (hq : s.broker.queue.IsOrdered)
      (hlate : ∀ a ∈ s.alarms, ¬ a.due ≤ limit) :
      s.broker.share y = (s.broker.reap limit).share y := by
    rw [Broker.share_reap_of_lapsing hq, if_neg]
    intro hlapsing
    obtain ⟨q, hmem, hlapsed, _⟩ := Queue.mem_lapsing_iff.mp hlapsing
    obtain ⟨d, hd, hle⟩ := Entry.hasLapsed_iff.mp hlapsed
    obtain ⟨a, ha, rfl⟩ := exists_alarm_of_claimed hmem hd
    exact hlate a ha hle
  induction budget generalizing now s with
  | zero =>
    have hnone : s.alarms = [] :=
      List.eq_nil_of_length_eq_zero ((length_alarms hs).trans (Nat.le_zero.mp hbudget))
    exact hdone (s := s) hq fun a ha => absurd ha (by simp [hnone])
  | succ budget ih =>
    rw [ringUntil]
    split
    · next hfirst =>
      exact hdone hq fun a ha => absurd ha (by simp [Alarm.first?_eq_none_iff.mp hfirst])
    · next a hfirst =>
      obtain ⟨ha, hleast⟩ := Alarm.first?_spec hfirst
      obtain ⟨q, hmem, hd, hcall⟩ := exists_claimed_of_alarm hs ha
      split
      · next hdue =>
        have hnow : q.hasLapsed (max now a.due) = true :=
          Entry.hasLapsed_iff.mpr ⟨a.due, hd, Nat.le_max_right _ _⟩
        have hlimit : q.hasLapsed limit = true := Entry.hasLapsed_iff.mpr ⟨a.due, hd, hdue⟩
        have hfewer := Broker.claimed_reclaim_lt hq hmem hnow
        have hordered := (Broker.proceeds_reclaim q.task.id (max now a.due) s.broker).isOrdered hq
        have hquiet := stragglers_answer hs (max now a.due) (.watchdog q.task.id)
        rw [hcall]
        exact (ih hquiet hordered (Nat.le_of_lt_succ (Nat.lt_of_lt_of_le hfewer hbudget)) _).trans
          (Broker.share_reap_reclaim hq hmem hnow hlimit y)
      · next hlate =>
        exact hdone hq fun b hb hle => hlate (Nat.le_trans (hleast b hb) hle)

end Site

/-! ## Claims with time left -/

/-- Every claim has time left. -/
def Queue.IsTimely (now : Time) (q : Queue) : Prop :=
  ∀ e ∈ q.entries, ∀ d, e.deadline = some d → now < d

theorem Queue.isTimely_iff {now : Time} {q : Queue} :
    q.IsTimely now ↔ ∀ e ∈ q.entries, e.hasLapsed now = false := by
  refine forall₂_congr fun e _ => ?_
  cases hdeadline : e.deadline <;> simp [Entry.hasLapsed, hdeadline]

/-- A task is never claimed for no time. -/
theorem Task.claimWindow_pos (t : Task) : 0 < t.claimWindow :=
  Nat.lt_of_lt_of_le Nat.one_pos (Nat.le_max_left 1 _)

namespace Moment

variable {m : Moment}

/-- A poll leaves only claims with time left. -/
theorem isTimely_poll (hm : m.broker.IsConsistent) :
    (m.step .poll).2.broker.queue.IsTimely m.now := by
  have hkept {q : Entry} (hq : q ∈ m.broker.queue.entries.filter
      (·.task.expression ∉ m.broker.queue.lapsing m.now)) : q.hasLapsed m.now = false := by
    rw [← Broker.entries_reap hm.queue] at hq
    exact Broker.not_lapsed_of_mem_reap hm.queue hq
  rw [Queue.isTimely_iff]
  intro q hq
  rcases entries_poll hm with ⟨_, hentries⟩ | ⟨t, before, behind, _, hrow, hentries⟩
  · exact hkept (hentries ▸ hq)
  · rw [hentries] at hq
    rcases List.mem_append.mp hq with hbefore | hbehind
    · exact hkept (hrow ▸ List.mem_append_left _ hbefore)
    · rcases List.mem_cons.mp hbehind with rfl | hbehind
      · exact decide_eq_false (Nat.not_le_of_lt (Nat.lt_add_of_pos_right t.claimWindow_pos))
      · exact hkept (hrow ▸ List.mem_append_right _ (List.mem_cons_of_mem _ hbehind))

/-- While the clock stands still, events leave claims time that had time left. -/
theorem isTimely_step (hm : m.broker.IsConsistent) (h : m.broker.queue.IsTimely m.now)
    (ev : Event) : (m.step ev).2.broker.queue.IsTimely m.now := by
  by_cases hpoll : ev = .poll
  · subst hpoll
    exact isTimely_poll hm
  · intro q hq d hd
    have hclaimed : q.isClaimed = true := by simp [Entry.isClaimed, hd]
    rcases mem_or_offered_of_step hm.isOrdered ev hq hclaimed with hold | hoffered
    · exact h q hold d hd
    · exact absurd (eq_poll_of_offered hoffered) hpoll

end Moment

namespace Timeline

variable {t : Timeline}

/-- A sleep leaves the queue and the table that reaping at its end leaves. -/
theorem sleep_agrees_with_reaping (hs : t.site.stragglers = []) (ht : t.broker.IsConsistent)
    (ms : Nat) :
    (t.sleep ms).broker.queue.entries = (t.broker.reap (t.now + ms)).queue.entries ∧
      (t.sleep ms).broker.table = (t.broker.reap (t.now + ms)).table := by
  have hslept : t.broker.Proceeds (t.sleep ms).broker := Site.proceeds_ringUntil hs _ _ _
  have hreaped := Broker.proceeds_reap (t.now + ms) t.broker
  have hshare (y : ExpressionId) :
      (t.sleep ms).broker.share y = (t.broker.reap (t.now + ms)).share y :=
    Site.share_ringUntil hs ht.queue _ (Nat.le_of_eq (Site.length_alarms hs).symm) _ y
  exact ⟨Broker.entries_eq_of_share_eq (hslept.isOrdered ht.queue) (hreaped.isOrdered ht.queue)
      hshare,
    Broker.table_eq_of_share_eq (hslept.2.isNumbered ht.table) (hreaped.2.isNumbered ht.table)
      (hslept.2.lastId_eq.trans hreaped.2.lastId_eq.symm) hshare⟩

/-- A sleep leaves only claims with time left. -/
theorem isTimely_sleep (hs : t.site.stragglers = []) (ht : t.broker.IsConsistent) (ms : Nat) :
    (t.sleep ms).broker.queue.IsTimely (t.now + ms) := by
  rw [Queue.isTimely_iff, (sleep_agrees_with_reaping hs ht ms).1]
  exact fun q hq => Broker.not_lapsed_of_mem_reap ht.queue hq

/-- Every action but a stall leaves claims time that had time left. -/
theorem isTimely_act (hs : t.site.stragglers = []) (ht : t.broker.IsConsistent)
    (htimely : t.broker.queue.IsTimely t.now) {a : Action} (ha : ∀ ms, a ≠ .stall ms) :
    (t.act a).broker.queue.IsTimely (t.act a).now := by
  cases a with
  | submit text owner =>
    have hstep := Moment.isTimely_step (m := t.moment) ht htimely (.submit text owner)
    rw [← moment_submit] at hstep
    have hnow : (t.submit text owner).2.now = t.now := by
      rw [submit]
      split <;> rfl
    rw [act, hnow]
    exact hstep
  | poll => exact Moment.isTimely_poll (m := t.moment) ht
  | report r =>
    have hstep := Moment.isTimely_step (m := t.moment) ht htimely (.report r)
    rw [← moment_report] at hstep
    exact hstep
  | sleep ms => exact isTimely_sleep hs ht ms
  | stall ms => exact absurd rfl (ha ms)

/-- Rows of actions without stalls leave claims time that had time left. -/
theorem isTimely_after (hs : t.site.stragglers = []) (ht : t.broker.IsConsistent)
    (htimely : t.broker.queue.IsTimely t.now) {actions : List Action}
    (hactions : ∀ a ∈ actions, ∀ ms, a ≠ .stall ms) :
    (t.after actions).broker.queue.IsTimely (t.after actions).now := by
  induction actions generalizing t with
  | nil => exact htimely
  | cons a rest ih =>
    obtain ⟨ha, hrest⟩ := List.forall_mem_cons.mp hactions
    have hquiet : (t.act a).site.stragglers = [] := stragglers_after hs [a]
    have hconsistent : (t.act a).broker.IsConsistent := isConsistent_after ht [a]
    exact ih hquiet hconsistent (isTimely_act hs ht htimely ha) hrest

/-- A sleep fails the rows of the expressions with a claim that lapses before it ends, all of which
were being processed, and takes their entries out. -/
theorem sleep_times_out (hs : t.site.stragglers = []) (ht : t.broker.IsConsistent) (ms : Nat) :
    let due := t.broker.queue.lapsing (t.now + ms)
    (∀ e ∈ t.broker.table.expressions, e.id ∈ due → e.status = .processing) ∧
      (t.sleep ms).broker.table.expressions = t.broker.table.expressions.map (fun e =>
        if e.id ∈ due then { e with status := .failed Broker.timeoutReason } else e) ∧
      (t.sleep ms).broker.queue.entries =
        t.broker.queue.entries.filter (·.task.expression ∉ due) := by
  intro due
  have hopen {e : Expression} (he : e ∈ t.broker.table.expressions) (hdue : e.id ∈ due) :
      e.isFinal = false := Broker.isFinal_eq_false_of_lapsing ht he hdue
  obtain ⟨hentries, htable⟩ := sleep_agrees_with_reaping hs ht ms
  exact ⟨fun e he hdue => Expression.isFinal_eq_false_iff.mp (hopen he hdue),
    (congrArg Table.expressions htable).trans (Broker.expressions_reap_of_lapsing ht _),
    hentries.trans (Broker.entries_reap ht.queue _)⟩

/-- A sleep turns an expression into one that has timed out if and only if a claim of it lapses
before the sleep ends. -/
theorem times_out_iff (hs : t.site.stragglers = []) (ht : t.broker.IsConsistent) {ms : Nat}
    {e e' : Expression} (he : e ∈ t.broker.table.expressions)
    (he' : e' ∈ (t.sleep ms).broker.table.expressions) (hid : e'.id = e.id) :
    e'.status ≠ e.status ∧ e'.status = .failed Broker.timeoutReason ↔
      e.id ∈ t.broker.queue.lapsing (t.now + ms) := by
  obtain ⟨hopen, hrows, _⟩ := sleep_times_out hs ht ms
  -- The row of the same number after the sleep is the one that the sleep made of this one.
  obtain ⟨e₀, he₀, rfl⟩ := List.mem_map.mp (hrows ▸ he')
  obtain rfl : e₀ = e := by
    have hid₀ : e₀.id = e.id := by
      rw [← hid]
      split <;> rfl
    have hget := ht.table.get?_eq_some he₀
    rw [hid₀, ht.table.get?_eq_some he] at hget
    exact (Option.some.inj hget).symm
  by_cases hdue : e₀.id ∈ t.broker.queue.lapsing (t.now + ms)
  · rw [if_pos hdue, hopen e₀ he₀ hdue]
    exact iff_of_true ⟨by simp, rfl⟩ hdue
  · rw [if_neg hdue]
    exact iff_of_false (fun hturned => hturned.1 rfl) hdue

/-- After any row of actions on a new broker, a poll leaves only claims with time left, and if
there was no stall, all claims have time left anyway. A sleep turns an expression into one that has
timed out if and only if it had a claimed task whose deadline comes before the sleep ends or as it
ends; it takes all tasks of such expressions out, and leaves every other row and entry. -/
theorem timeouts_fire_when_due (costs : Costs) (actions : List Action) :
    let t := after { site := { broker := { costs := costs } } } actions
    ((∀ a ∈ actions, ∀ ms, a ≠ .stall ms) → t.broker.queue.IsTimely t.now) ∧
      (t.act .poll).broker.queue.IsTimely (t.act .poll).now ∧
      ∀ ms,
        let t' := t.act (.sleep ms)
        let due := t.broker.queue.lapsing t'.now
        t'.now = t.now + ms ∧
          (∀ e ∈ t.broker.table.expressions, ∀ e' ∈ t'.broker.table.expressions, e'.id = e.id →
            (e'.status ≠ e.status ∧ e'.status = .failed "timeout" ↔
              ∃ q ∈ t.broker.queue.entries, q.task.expression = e.id ∧
                ∃ d, q.deadline = some d ∧ d ≤ t'.now)) ∧
          t'.broker.table.expressions = t.broker.table.expressions.map (fun e =>
            if e.id ∈ due then { e with status := .failed "timeout" } else e) ∧
          t'.broker.queue.entries =
            t.broker.queue.entries.filter (·.task.expression ∉ due) := by
  intro t
  have hnew : Broker.IsConsistent { costs := costs } := Broker.isConsistent_new costs
  have hs : t.site.stragglers = [] := stragglers_after rfl actions
  have ht : t.broker.IsConsistent := (reachable_after costs actions).isConsistent
  refine ⟨fun hactions => ?_, Moment.isTimely_poll (m := t.moment) ht, fun ms => ?_⟩
  · exact isTimely_after (t := { site := { broker := { costs := costs } } }) rfl hnew
      (fun e he => absurd he List.not_mem_nil) hactions
  · intro t' due
    obtain ⟨_, hrows, hentries⟩ := sleep_times_out hs ht ms
    refine ⟨rfl, fun e he e' he' hid => ?_, hrows, hentries⟩
    refine (times_out_iff hs ht he he' hid).trans ?_
    simp only [Queue.mem_lapsing_iff, Entry.hasLapsed_iff, and_comm]
    rfl

/-- Three claims are held, of which the one of a sum that costs nothing lasts for a millisecond. A
sleep of one millisecond times its expression out, with the difference that it also waits for, and
leaves the product of the other expression. -/
theorem timeouts_fire_when_due_at_last_moment :
    let actions : List Action :=
      [.submit "(1+2)*(3-4)" 7, .submit "5*6" 8, .poll, .poll, .poll]
    let t := after { site := { broker := { costs := { addition := 0 } } } } actions
    t.broker.queue.IsTimely t.now ∧
      t.broker.queue.entries.map (·.deadline) = [some 1, some 2000, some 4000] ∧
      (t.act (.sleep 1)).broker.table.expressions.map (·.status) =
        [.failed "timeout", .processing] ∧
      (t.act (.sleep 1)).broker.queue.entries.map (·.task.id) = [3] := by
  intro actions t
  obtain ⟨hclaims, _, hsleep⟩ := timeouts_fire_when_due { addition := 0 } actions
  obtain ⟨_, _, hrows, hentries⟩ := hsleep 1
  refine ⟨hclaims (by simp [actions]), by decide +kernel, ?_, ?_⟩
  · rw [hrows]
    decide +kernel
  · rw [hentries]
    decide +kernel

end Timeline

end Piecework
