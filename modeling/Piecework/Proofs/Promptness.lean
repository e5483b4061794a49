import Piecework.Proofs.InHand
import Piecework.Proofs.Passage
import Piecework.Proofs.Schedule

/-!
# A prompt worker

A worker that spends exactly its tasks' costs, beside a broker that nobody else polls or
reports to, is never late in virtual time: each task is reported when its cost is spent,
which is before its claim lapses. So no claim ever times out, and a report is refused only
when the expression of its task has failed meanwhile.
-/

namespace Piecework

/-! ## The worker's log -/

/-- A worker's log, where some expressions have failed: what was fetched is in hand or was reported
when its cost was spent, and what was reported was accepted or its expression has failed. -/
structure Crew.IsLogged (costs : Costs) (failed : ExpressionId → Prop) (c : Crew) : Prop where
  cost_eq : ∀ τ t, (τ, .fetched t) ∈ c.log → t.cost = costs.cost t.operator
  fetched : ∀ τ t, (τ, .fetched t) ∈ c.log →
    (∃ a, (τ + t.cost, .reported t.compute a) ∈ c.log) ∨ ∃ w, (t, w) ∈ c.works ∧ w.since = τ
  noted : ∀ p ∈ c.works, (p.2.since, .fetched p.1) ∈ c.log
  reported : ∀ τ r a, (τ, .reported r a) ∈ c.log → ∃ τ' t, (τ', .fetched t) ∈ c.log ∧
    r = t.compute ∧ τ = τ' + t.cost ∧ (a = .accepted ∨ a = .refused ∧ failed t.expression)

namespace Crew.IsLogged

variable {costs : Costs} {failed failed' : ExpressionId → Prop} {c c' : Crew} {now : Time}
  {t : Task} {w : Wait}

/-- A log stays right while the same tasks are in hand, nothing but misses is noted and more
expressions fail. -/
theorem of_mem_iff (h : c.IsLogged costs failed) (hfailed : ∀ x, failed x → failed' x)
    (hworks : c'.works.Perm c.works)
    (hlog : ∀ τ n, n ≠ .foundNothing → ((τ, n) ∈ c'.log ↔ (τ, n) ∈ c.log)) :
    c'.IsLogged costs failed' where
  cost_eq := fun τ t hmem => h.cost_eq τ t ((hlog _ _ (by simp)).mp hmem)
  fetched := fun τ t hmem => by
    rcases h.fetched τ t ((hlog _ _ (by simp)).mp hmem) with ⟨a, ha⟩ | ⟨w, hw, hsince⟩
    · exact .inl ⟨a, (hlog _ _ (by simp)).mpr ha⟩
    · exact .inr ⟨w, hworks.mem_iff.mpr hw, hsince⟩
  noted := fun p hp => (hlog _ _ (by simp)).mpr (h.noted p (hworks.mem_iff.mp hp))
  reported := fun τ r a hmem => by
    obtain ⟨τ', t, ht, hr, hτ, hanswer⟩ := h.reported τ r a ((hlog _ _ (by simp)).mp hmem)
    exact ⟨τ', t, (hlog _ _ (by simp)).mpr ht, hr, hτ,
      hanswer.imp_right (And.imp_right (hfailed _))⟩

/-- A loop that fetches a task notes that and has it in hand. -/
theorem fetch (h : c.IsLogged costs failed) (hfailed : ∀ x, failed x → failed' x)
    (hcost : t.cost = costs.cost t.operator) (hsince : w.since = now)
    (hworks : c'.works.Perm ((t, w) :: c.works)) (hlog : c'.log = (now, .fetched t) :: c.log) :
    c'.IsLogged costs failed' where
  cost_eq := fun τ t' hmem => by
    rw [hlog] at hmem
    rcases List.mem_cons.mp hmem with hnew | hold
    · obtain ⟨_, rfl⟩ : τ = now ∧ t' = t := by simpa using hnew
      exact hcost
    · exact h.cost_eq τ t' hold
  fetched := fun τ t' hmem => by
    rw [hlog] at hmem ⊢
    rcases List.mem_cons.mp hmem with hnew | hold
    · obtain ⟨rfl, rfl⟩ : τ = now ∧ t' = t := by simpa using hnew
      exact .inr ⟨w, hworks.mem_iff.mpr List.mem_cons_self, hsince⟩
    · rcases h.fetched τ t' hold with ⟨a, ha⟩ | ⟨w', hw', hsince'⟩
      · exact .inl ⟨a, List.mem_cons_of_mem _ ha⟩
      · exact .inr ⟨w', hworks.mem_iff.mpr (List.mem_cons_of_mem _ hw'), hsince'⟩
  noted := fun p hp => by
    rw [hlog]
    rcases List.mem_cons.mp (hworks.mem_iff.mp hp) with rfl | hold
    · simp [hsince]
    · exact List.mem_cons_of_mem _ (h.noted p hold)
  reported := fun τ r a hmem => by
    have hold : (τ, .reported r a) ∈ c.log := by simpa [hlog] using hmem
    obtain ⟨τ', t', ht', hr, hτ, hanswer⟩ := h.reported τ r a hold
    exact ⟨τ', t', hlog ▸ List.mem_cons_of_mem _ ht', hr, hτ,
      hanswer.imp_right (And.imp_right (hfailed _))⟩

/-- A loop that reports its task when its cost is spent notes the answer. -/
theorem deliver {a : Receipt} (h : c.IsLogged costs failed) (hfailed : ∀ x, failed x → failed' x)
    (hnow : now = w.since + t.cost)
    (hanswer : a = .accepted ∨ a = .refused ∧ failed' t.expression)
    (hworks : c.works.Perm ((t, w) :: c'.works))
    (hlog : c'.log = (now, .reported t.compute a) :: c.log) : c'.IsLogged costs failed' where
  cost_eq := fun τ t' hmem => h.cost_eq τ t' (by simpa [hlog] using hmem)
  fetched := fun τ t' hmem => by
    rw [hlog]
    rcases h.fetched τ t' (by simpa [hlog] using hmem) with ⟨a', ha'⟩ | ⟨w', hw', hsince⟩
    · exact .inl ⟨a', List.mem_cons_of_mem _ ha'⟩
    · rcases List.mem_cons.mp (hworks.mem_iff.mp hw') with hdone | hleft
      · obtain ⟨rfl, rfl⟩ := Prod.mk.inj hdone
        exact .inl ⟨a, by simp [hnow, hsince]⟩
      · exact .inr ⟨w', hleft, hsince⟩
  noted := fun p hp => by
    rw [hlog]
    exact List.mem_cons_of_mem _ (h.noted p (hworks.mem_iff.mpr (List.mem_cons_of_mem _ hp)))
  reported := fun τ r a' hmem => by
    rw [hlog] at hmem
    have hnoted := h.noted (t, w) (hworks.mem_iff.mpr List.mem_cons_self)
    rcases List.mem_cons.mp hmem with hnew | hold
    · obtain ⟨rfl, rfl, rfl⟩ : τ = now ∧ r = t.compute ∧ a' = a := by simpa using hnew
      exact ⟨w.since, t, hlog ▸ List.mem_cons_of_mem _ hnoted, rfl, hnow, hanswer⟩
    · obtain ⟨τ', t', ht', hr, hτ, hanswer'⟩ := h.reported τ r a' hold
      exact ⟨τ', t', hlog ▸ List.mem_cons_of_mem _ ht', hr, hτ,
        hanswer'.imp_right (And.imp_right (hfailed _))⟩

end Crew.IsLogged

/-! ## The worker and its broker -/

namespace Shift

variable {costs : Costs} {setup : Setup} {s s' : Shift Site}

/-- The broker of a shift at its time. -/
def moment (s : Shift Site) : Moment := s.source.moment s.now

/-- An expression has failed at a shift's broker. -/
def HasFailed (s : Shift Site) (x : ExpressionId) : Prop := (s.source.broker.share x).HasFailed

/-- A worker is prompt: what it has in hand is on time and its log is right, and nobody else has
claims or alarms at the broker. -/
structure IsPrompt (costs : Costs) (s : Shift Site) : Prop where
  costs_eq : s.source.broker.costs = costs
  quiet : s.source.stragglers = []
  served : s.moment.IsServed s.crew.works
  logged : s.crew.IsLogged costs s.HasFailed

/-- A worker that starts beside a new broker is prompt. -/
theorem isPrompt_start (hcosts : costs.FitTwice) (setup : Setup) :
    (start costs setup).IsPrompt costs where
  costs_eq := rfl
  quiet := rfl
  served := by
    simp only [start, Crew.works_start]
    exact Moment.isServed_new hcosts 0
  logged := by
    have hworks (p : Task × Wait) : p ∉ (Crew.start setup).works := by simp [Crew.works_start]
    have hlog (p : Time × Note) : p ∉ (Crew.start setup).log := List.not_mem_nil
    exact ⟨fun _ _ hmem => absurd hmem (hlog _), fun _ _ hmem => absurd hmem (hlog _),
      fun _ hp => absurd hp (hworks _), fun _ _ _ hmem => absurd hmem (hlog _)⟩

namespace IsPrompt

/-- No alarm of the broker is ever due. -/
theorem now_lt_of_alarm? (h : s.IsPrompt costs) {a : Alarm Callee} (ha : s.source.alarm? = some a) :
    s.now < a.due := by
  obtain ⟨q, hq, hd, _⟩ := Site.exists_claimed_of_alarm h.quiet (Alarm.first?_spec ha).1
  exact h.served.isTimely q hq _ hd

/-- The answer to a report on a task in hand. -/
theorem send_accepted_or_failed (h : s.IsPrompt costs) {t : Task} {w : Wait}
    (hp : (t, w) ∈ s.crew.works) :
    (s.source.send s.now t.compute).1 = .accepted ∧
        ⟨t, some (w.since + t.claimWindow)⟩ ∈ s.source.broker.queue.entries ∨
      (s.source.send s.now t.compute).1 = .refused ∧ s.HasFailed t.expression := by
  rw [Site.send_eq]
  rcases h.served.report_accepted_or_failed hp with ⟨hok, hqueued⟩ | ⟨hrefused, hfailed⟩
  · exact .inl ⟨if_pos hok, hqueued⟩
  · exact .inr ⟨if_neg hrefused, hfailed⟩

end IsPrompt

/-- A worker stays prompt when an event happens to its broker that serves what it has in hand
then. -/
theorem IsPrompt.of_step (h : s.IsPrompt costs) {ev : Event}
    (hstep : s'.moment = (s.moment.step ev).2)
    (hquiet : s'.source.stragglers = s.source.stragglers)
    (hserved : (s.moment.step ev).2.IsServed s'.crew.works)
    (hlogged : (∀ x, s.HasFailed x → s'.HasFailed x) → s'.crew.IsLogged costs s'.HasFailed) :
    s'.IsPrompt costs := by
  have hbroker : s'.source.broker = (s.moment.step ev).2.broker := congrArg Moment.broker hstep
  refine ⟨?_, hquiet.trans h.quiet, hstep ▸ hserved, hlogged fun x hx => ?_⟩
  · rw [hbroker, Moment.costs_step]
    exact h.costs_eq
  · rw [HasFailed, hbroker]
    exact Moment.hasFailed_step h.served.consistent.isOrdered hx ev

/-- Whatever happens in virtual time, a prompt worker stays prompt. -/
theorem IsPrompt.happens (h : s.IsPrompt costs) (hs : s.Happens s') : s'.IsPrompt costs := by
  cases hs with
  | idle hworks hlog =>
    exact ⟨h.costs_eq, h.quiet, h.served.perm hworks.symm,
      h.logged.of_mem_iff (fun _ hx => hx) hworks fun _ _ _ => by rw [hlog]⟩
  | submit text owner =>
    exact h.of_step (Site.moment_submit s.now text owner s.source) (Site.stragglers_submit _ _ _)
      (h.served.submit text owner) fun hfailed =>
        h.logged.of_mem_iff hfailed (.refl _) fun _ _ _ => .rfl
  | miss hmiss hworks hlog =>
    exact h.of_step (Site.moment_fetch s.now s.source) (Site.stragglers_fetch _ _)
      ((h.served.miss hmiss).perm hworks.symm) fun hfailed =>
        h.logged.of_mem_iff hfailed hworks fun _ n hn => by simp [hlog, hn]
  | @fetch c t w hoffered hsince hdue hworks hlog =>
    have hserved := h.served.fetch hoffered hsince hdue
    have hcost := (hserved.inHand (t, w) List.mem_cons_self).cost_eq
    rw [Moment.costs_step, show s.moment.broker.costs = costs from h.costs_eq] at hcost
    exact h.of_step (Site.moment_fetch s.now s.source) (Site.stragglers_fetch _ _)
      (hserved.perm hworks.symm) fun hfailed =>
        h.logged.fetch hfailed hcost hsince hworks hlog
  | @deliver c t w hworks hdue hlog =>
    have hp : (t, w) ∈ s.crew.works := hworks.mem_iff.mpr List.mem_cons_self
    obtain ⟨hend, hnow, _, _⟩ := h.served.inHand (t, w) hp
    refine h.of_step (Site.moment_send s.now t.compute s.source) (Site.stragglers_send _ _ _)
      (h.served.perm hworks).report fun hfailed =>
        h.logged.deliver hfailed (Nat.le_antisymm (hend ▸ hnow) (hend ▸ hdue)) ?_ hworks hlog
    exact (h.send_accepted_or_failed hp).imp And.left (And.imp_right (hfailed _))
  | ring ha hdue => exact absurd hdue (Nat.not_le_of_lt (h.now_lt_of_alarm? ha))
  | wait hends => exact ⟨h.costs_eq, h.quiet, h.served.wait hends, h.logged⟩

/-- What virtual time leads to from a prompt worker is a prompt worker. -/
theorem IsPrompt.leads (h : s.IsPrompt costs) (hspends : setup.spendsCost = true)
    (hleads : s.Leads setup s') : s'.IsPrompt costs := by
  obtain ⟨os, hallowed, rfl⟩ := hleads
  induction os generalizing s with
  | nil => exact h
  | cons o os ih =>
    obtain ⟨hfirst, hrest⟩ := Bool.and_eq_true_iff.mp hallowed
    exact ih (h.happens (happens_of_allows hspends hfirst)) hrest

end Shift

/-! ## Time goes on -/

namespace Crew

variable {c : Crew} {i : Nat}

/-- The number of loops that wait. -/
def waiting (c : Crew) : Nat := c.stages.countP (·.wait?.isSome)

/-- A waiting loop that is put at a stage without a wait waits no more. -/
theorem waiting_put_lt {a b : Stage} (h : c.stages[i]? = some a) {w : Wait} (hw : a.wait? = some w)
    (hb : b.wait? = none) : (c.put i b).waiting < c.waiting := by
  have hcount := countP_set_add h (·.wait?.isSome) b
  simp only [hw, hb, Option.isSome_some, Option.isSome_none, Bool.toNat_true, Bool.toNat_false]
    at hcount
  exact Nat.lt_of_succ_le (Nat.le_of_eq hcount)

/-- The answer to a report leaves the waits of the loops. -/
theorem waiting_settle {t : Task} (h : c.stages[i]? = some (.reporting t)) (now : Time)
    (a : Receipt) : (c.settle now t i a).waiting = c.waiting := by
  cases a <;> exact countP_set_add h (·.wait?.isSome) _

end Crew

namespace Shift

variable {costs : Costs} {setup : Setup} {s : Shift Site}

/-- Nothing is set for an earlier moment than the first loop: the watchdog of a claim rings after
the loop that has its task in hand. -/
theorem IsPrompt.le_of_mem_dues (h : s.IsPrompt costs) {d : Time}
    (hcrew : ∀ a, s.crew.alarm? = some a → d ≤ a.due) : ∀ due ∈ s.dues, d ≤ due := by
  refine Shift.le_of_mem_dues (fun a ha => ?_) hcrew
  obtain ⟨q, hq, hd, _⟩ := Site.exists_claimed_of_alarm h.quiet (Alarm.first?_spec ha).1
  obtain ⟨w, hw, hdeadline⟩ := h.served.held q hq _ hd
  have hexecuting : .executing q.task w ∈ s.crew.stages := Crew.mem_works_iff.mp hw
  cases hfirst : s.crew.alarm? with
  | none => exact absurd (Crew.wait?_eq_none_of_alarm? hfirst hexecuting) (by simp [Stage.wait?])
  | some b =>
    have hloop : b.due ≤ w.due := (Crew.alarm?_spec hfirst).2 _ hexecuting w rfl
    have hwindow := Task.cost_lt_claimWindow (h.served.fit_of_inHand hw)
    have hend : w.due ≤ a.due := by
      rw [(h.served.inHand _ hw).due_eq, hdeadline]
      exact Nat.add_le_add_left (Nat.le_of_lt hwindow) _
    exact Nat.le_trans (hcrew b hfirst) (Nat.le_trans hloop hend)

/-- A loop whose wait has ended does not wait after its turn. -/
theorem waiting_step (setup : Setup) {i : Nat} {stage : Stage} {w : Wait}
    (hstage : s.crew.stages[i]? = some stage) (hw : stage.wait? = some w) :
    (s.step Site.source setup i).crew.waiting < s.crew.waiting := by
  cases stage with
  | pausing w =>
    simp only [step, Crew.step, hstage]
    exact Crew.waiting_put_lt hstage hw rfl
  | executing t w =>
    simp only [step, Crew.step, hstage, Crew.deliver]
    rw [Crew.waiting_settle (Crew.getElem?_put hstage)]
    exact Crew.waiting_put_lt hstage hw rfl
  | polling | fetching | reporting _ | stopped => contradiction

/-- Time can always go on to any later moment. -/
theorem IsPrompt.exists_later (h : s.IsPrompt costs) (hspends : setup.spendsCost = true)
    {later : Time} (hlater : s.now ≤ later) : ∃ s', s.Leads setup s' ∧ s'.now = later := by
  -- Each loop that rings before that moment waits no more, so only as many turns are needed.
  induction hn : s.crew.waiting using Nat.strongRecOn generalizing s with
  | _ n ih =>
    subst hn
    by_cases hnext : ∃ a, s.crew.alarm? = some a ∧ a.due < later
    · obtain ⟨a, ha, hbefore⟩ := hnext
      obtain ⟨⟨stage, w, hstage, hw, _⟩, _⟩ := Crew.alarm?_spec ha
      have hdues : ∀ due ∈ s.dues, a.due ≤ due := h.le_of_mem_dues fun b hb => by
        rw [ha] at hb
        exact Nat.le_of_eq (congrArg Alarm.due (Option.some.inj hb))
      have hturn : s.Leads setup _ := .turn ha hdues
      have hfewer := waiting_step (s := { s with now := max s.now a.due }) setup hstage hw
      obtain ⟨s', hrest, hnow⟩ := ih _ hfewer (h.leads hspends hturn)
        (Nat.max_le.mpr ⟨hlater, Nat.le_of_lt hbefore⟩) rfl
      exact ⟨s', hturn.trans hrest, hnow⟩
    · have hdues := h.le_of_mem_dues (d := later) fun a ha =>
        Nat.le_of_not_lt fun hbefore => hnext ⟨a, ha, hbefore⟩
      exact ⟨_, .arrive hdues, Nat.max_eq_right hlater⟩

/-! ## The worker's claims -/

namespace IsPrompt

/-- A task in hand costs what its operator does. -/
theorem cost_eq (h : s.IsPrompt costs) {t : Task} {w : Wait} (hp : (t, w) ∈ s.crew.works) :
    t.cost = costs.cost t.operator :=
  h.logged.cost_eq _ _ (h.logged.noted _ hp)

/-- The claim on a task in hand lasts for twice the cost, or for a millisecond. -/
theorem claimWindow_eq (h : s.IsPrompt costs) {t : Task} {w : Wait} (hp : (t, w) ∈ s.crew.works) :
    t.claimWindow = max 1 (2 * costs.cost t.operator) := by
  rw [Task.claimWindow_eq (h.served.fit_of_inHand hp), h.cost_eq hp]

/-- No expression has timed out. -/
theorem status_ne (h : s.IsPrompt costs) {e : Expression}
    (he : e ∈ s.source.broker.table.expressions) : e.status ≠ .failed "timeout" :=
  h.served.untimed e.id e (h.served.consistent.table.get?_eq_some he)

/-- An expression that has failed has not timed out. -/
theorem exists_reason (h : s.IsPrompt costs) {x : ExpressionId} (hx : s.HasFailed x) :
    ∃ e reason, s.source.broker.table.get? x = some e ∧ e.status = .failed reason ∧
      reason ≠ "timeout" := by
  obtain ⟨e, reason, he, hstatus⟩ := hx
  exact ⟨e, reason, he, hstatus, fun hreason =>
    h.served.untimed x e he (hstatus.trans (congrArg _ hreason))⟩

end IsPrompt

end Shift

end Piecework
