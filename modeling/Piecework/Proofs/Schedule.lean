import Piecework.Proofs.Crew
import Piecework.Proofs.VirtualTime
import Piecework.Timeline.Work

/-!
# What happens beside a worker

Whatever happens in virtual time beside a worker that spends its tasks' costs, it is one
of a few things for the broker and for the tasks in the loops' hands: an expression comes
in, a loop fetches a task or finds none, a loop whose time has come reports its task, an
alarm rings whose time has come, or time passes up to the end of no task. All else
changes neither the broker nor the tasks in hand.
-/

namespace Piecework

/-- The task that a loop is executing, with its wait. -/
def Stage.work? : Stage → Option (Task × Wait)
  | executing t w => some (t, w)
  | _ => none

namespace Crew

variable {c : Crew} {i : Nat}

/-- The tasks in the loops' hands, with their waits. -/
def works (c : Crew) : List (Task × Wait) := c.stages.filterMap Stage.work?

/-- A task is in hand where a loop is executing it. -/
theorem mem_works_iff {t : Task} {w : Wait} : (t, w) ∈ c.works ↔ .executing t w ∈ c.stages := by
  refine List.mem_filterMap.trans ⟨?_, fun h => ⟨_, h, rfl⟩⟩
  rintro ⟨stage, hmem, hwork⟩
  cases stage <;> simp_all [Stage.work?]

/-- Loops that start have nothing in hand. -/
theorem works_start (setup : Setup) : (start setup).works = [] := by
  simp [works, start, Stage.work?]

/-- A loop that is put at a stage has in hand what it has at that stage. -/
theorem works_put {s : Stage} (h : c.stages[i]? = some s) (s' : Stage) :
    ((c.put i s').works ++ s.work?.toList).Perm (c.works ++ s'.work?.toList) :=
  filterMap_set_perm h Stage.work? s'

/-- A loop without a task that is put at a stage without one leaves what the others have. -/
theorem works_put_of_none {s s' : Stage} (h : c.stages[i]? = some s) (hs : s.work? = none)
    (hs' : s'.work? = none) : (c.put i s').works.Perm c.works := by
  simpa [hs, hs'] using works_put h s'

/-- A loop without a task that begins to execute one has it in hand. -/
theorem works_put_executing {s : Stage} (h : c.stages[i]? = some s) (hs : s.work? = none) (t : Task)
    (w : Wait) : (c.put i (.executing t w)).works.Perm ((t, w) :: c.works) := by
  have hput := works_put h (.executing t w)
  rw [hs] at hput
  simpa [Stage.work?] using hput.trans List.perm_append_comm

/-- A loop that gets a task has it in hand until its cost is spent. -/
theorem works_receive {setup : Setup} (hspends : setup.spendsCost = true)
    (h : c.stages[i]? = some .fetching) (now : Time) (t : Task) :
    (c.receive setup now i (.task t)).works.Perm ((t, c.waitFor now t.cost) :: c.works) := by
  simp only [receive, execute, hspends, if_true]
  exact works_put_executing h rfl t (c.waitFor now t.cost)

/-- A loop that has executed its task has it in hand no more. -/
theorem works_put_of_executing {t : Task} {w : Wait} (h : c.stages[i]? = some (.executing t w))
    {s : Stage} (hs : s.work? = none) : c.works.Perm ((t, w) :: (c.put i s).works) := by
  have hput := works_put h s
  rw [hs] at hput
  simpa [Stage.work?] using hput.symm.trans List.perm_append_comm

/-- The answer to a report changes nothing about the tasks in hand. -/
theorem works_settle {t : Task} (h : c.stages[i]? = some (.reporting t)) (now : Time)
    (a : Receipt) : (c.settle now t i a).works.Perm c.works := by
  cases a <;> exact works_put_of_none h rfl rfl

/-- A loop that has reported its task has it in hand no more. -/
theorem works_deliver {i : Nat} {t : Task} {w : Wait} (h : c.stages[i]? = some (.executing t w))
    (now : Time) (a : Receipt) :
    c.works.Perm ((t, w) :: ((c.put i (.reporting t)).settle now t i a).works) := by
  have hreporting : (c.put i (.reporting t)).stages[i]? = some (.reporting t) := getElem?_put h
  have hdone : c.works.Perm ((t, w) :: (c.put i (.reporting t)).works) :=
    works_put_of_executing h rfl
  exact hdone.trans ((works_settle hreporting now a).symm.cons _)

/-- The answer to a report is noted. -/
theorem log_settle (now : Time) (t : Task) (i : Nat) (a : Receipt) (c : Crew) :
    (c.settle now t i a).log = (now, .reported t.compute a) :: c.log := by
  cases a <;> rfl

/-- Waking loops leaves every task in hand. -/
theorem works_notify (c : Crew) : c.notify.works = c.works := by
  simp only [works, notify, List.filterMap_map]
  refine List.filterMap_congr fun s _ => ?_
  cases s <;> rfl

end Crew

namespace Site

variable {s : Site} {now : Time}

/-- A request leaves the stragglers. -/
theorem stragglers_fetch (now : Time) (s : Site) : (s.fetch now).2.stragglers = s.stragglers := by
  unfold fetch
  split <;> rfl

/-- A report leaves the stragglers. -/
theorem stragglers_send (now : Time) (r : Report) (s : Site) :
    (s.send now r).2.stragglers = s.stragglers := by
  unfold send
  split <;> rfl

/-- A submission leaves the stragglers. -/
theorem stragglers_submit (text : String) (owner : Nat) (s : Site) :
    (s.submit text owner).stragglers = s.stragglers := by
  unfold submit
  split <;> rfl

/-- A submission at a site is one at its broker. -/
theorem moment_submit (now : Time) (text : String) (owner : Nat) (s : Site) :
    (s.submit text owner).moment now = ((s.moment now).step (.submit text owner)).2 := by
  simp only [submit, Moment.step, moment]
  cases s.broker.submit text owner <;> rfl

/-- A worker gets the task that its poll offers. -/
theorem fetch_eq (now : Time) (s : Site) :
    (s.fetch now).1 = .nothing ∧ ((s.moment now).step .poll).1 = .offered none ∨
      ∃ t, (s.fetch now).1 = .task t ∧ ((s.moment now).step .poll).1 = .offered (some t) := by
  simp only [fetch, Moment.step, moment]
  rcases s.broker.poll now with ⟨_ | t, b⟩
  · exact .inl ⟨rfl, rfl⟩
  · exact .inr ⟨t, rfl, rfl⟩

/-- A worker's report is accepted if the broker accepts it, and refused otherwise. -/
theorem send_eq (now : Time) (r : Report) (s : Site) :
    (s.send now r).1 = if (s.broker.report r).1 = .ok () then .accepted else .refused := by
  unfold send
  rcases s.broker.report r with ⟨e | u, b⟩
  · simp
  · simp

end Site

namespace Shift

variable {s : Shift Site}

/-- What can happen, as the broker and the tasks in hand see it. -/
inductive Happens (s : Shift Site) : Shift Site → Prop where
  | idle {c : Crew} : c.works.Perm s.crew.works → c.log = s.crew.log →
      Happens s { s with crew := c }
  | submit (text : String) (owner : Nat) :
      Happens s { s with source := s.source.submit text owner }
  | miss {c : Crew} : ((s.source.moment s.now).step .poll).1 = .offered none →
      c.works.Perm s.crew.works → c.log = (s.now, .foundNothing) :: s.crew.log →
      Happens s ⟨s.now, c, (s.source.fetch s.now).2⟩
  | fetch {c : Crew} {t : Task} {w : Wait} :
      ((s.source.moment s.now).step .poll).1 = .offered (some t) →
      w.since = s.now → w.due = s.now + t.cost → c.works.Perm ((t, w) :: s.crew.works) →
      c.log = (s.now, .fetched t) :: s.crew.log →
      Happens s ⟨s.now, c, (s.source.fetch s.now).2⟩
  | deliver {c : Crew} {t : Task} {w : Wait} : s.crew.works.Perm ((t, w) :: c.works) →
      w.due ≤ s.now →
      c.log = (s.now, .reported t.compute (s.source.send s.now t.compute).1) :: s.crew.log →
      Happens s ⟨s.now, c, (s.source.send s.now t.compute).2⟩
  | ring {a : Alarm Callee} : s.source.alarm? = some a → a.due ≤ s.now →
      Happens s { s with source := s.source.answer s.now a.call }
  | wait {ms : Nat} : (∀ p ∈ s.crew.works, s.now + ms ≤ p.2.due) →
      Happens s { s with now := s.now + ms }

/-- A loop that polls ends, or fetches a task, or finds none. -/
theorem happens_fetch {setup : Setup} (hspends : setup.spendsCost = true) {i : Nat}
    (h : s.crew.stages[i]? = some .polling) :
    s.Happens (s.step Site.source setup i) := by
  have hfetching : (s.crew.put i .fetching).stages[i]? = some .fetching := Crew.getElem?_put h
  have hasked : (s.crew.put i .fetching).works.Perm s.crew.works :=
    Crew.works_put_of_none h rfl rfl
  simp only [step, Crew.step, h, Crew.fetch, Crew.ask]
  cases hstopping : s.crew.stopping with
  | true => exact .idle (Crew.works_put_of_none h rfl rfl) rfl
  | false =>
    rcases s.source.fetch_eq s.now with ⟨hfetch, hpoll⟩ | ⟨t, hfetch, hpoll⟩
    · simp only [Site.source, hfetch]
      exact .miss hpoll ((Crew.works_put_of_none hfetching rfl rfl).trans hasked) rfl
    · simp only [Site.source, hfetch]
      have hreceived := Crew.works_receive hspends hfetching s.now t
      exact .fetch hpoll rfl rfl (hreceived.trans (hasked.cons _)) rfl

/-- A loop that has executed its task reports it. -/
theorem happens_deliver {setup : Setup} {i : Nat} {t : Task} {w : Wait}
    (h : s.crew.stages[i]? = some (.executing t w)) (hdue : w.due ≤ s.now) :
    s.Happens (s.step Site.source setup i) := by
  simp only [step, Crew.step, h, Crew.deliver]
  exact .deliver (Crew.works_deliver h s.now _) hdue (Crew.log_settle s.now t i _ _)

/-- A loop that has paused polls again. -/
theorem happens_resume {setup : Setup} {i : Nat} {w : Wait}
    (h : s.crew.stages[i]? = some (.pausing w)) : s.Happens (s.step Site.source setup i) := by
  simp only [step, Crew.step, h]
  exact .idle (Crew.works_put_of_none h rfl rfl) rfl

/-- Whatever is allowed is one of the things that can happen. -/
theorem happens_of_allows {setup : Setup} (hspends : setup.spendsCost = true) {o : Occurrence}
    (h : s.allows o = true) : s.Happens (s.happen setup o) := by
  cases o with
  | submit text owner => exact .submit text owner
  | wait ms =>
    refine .wait fun p hp => ?_
    have hdue : p.2.due ∈ s.dues :=
      List.mem_append_right _ (List.mem_filterMap.mpr ⟨_, Crew.mem_works_iff.mp hp, rfl⟩)
    exact of_decide_eq_true (List.all_eq_true.mp h _ hdue)
  | turn t =>
    cases t with
    | request => exact .idle (.refl _) rfl
    | notify => exact .idle (.of_eq (Crew.works_notify _)) rfl
    | source =>
      obtain ⟨a, ha, hdue⟩ := (Option.any_eq_true _ _).mp h
      have hring : s.source.ring s.now = s.source.answer s.now a.call := by
        simp [Site.ring, ha]
      have hhappens := Happens.ring ha (of_decide_eq_true hdue)
      rw [← hring] at hhappens
      exact hhappens
    | loop i =>
      obtain ⟨stage, hstage, hready⟩ := (Option.any_eq_true _ _).mp h
      cases stage with
      | polling => exact happens_fetch hspends hstage
      | pausing w => exact happens_resume hstage
      | executing t w =>
        exact happens_deliver hstage (by simpa [Stage.rests] using hready)
      | fetching => contradiction
      | reporting t => contradiction
      | stopped => contradiction

end Shift

end Piecework
