import Piecework.Proofs.Passage
import Piecework.Proofs.Schedule

/-!
# The turns of a worker

With a source that answers at once, every turn does one of a few things to the loops and to the
source, and a worker in virtual time does nothing but take turns. So along any row of turns the
tasks that were fetched are those that were reported and those in the loops' hands, and from the
request to stop on the log gains nothing but reports.
-/

namespace Piecework

namespace Note

/-- The task that was fetched. -/
def fetch? : Note → Option Task
  | fetched t => some t
  | _ => none

/-- The report that was made. -/
def report? : Note → Option Report
  | reported r _ => some r
  | _ => none

end Note

/-- Whether a loop waits for no answer. -/
def Stage.isAnswered : Stage → Bool
  | fetching | reporting _ => false
  | _ => true

namespace Crew

variable {σ : Type} {src : Source σ} {setup : Setup} {now : Time} {c c' c'' : Crew} {s s' : σ}

/-- The tasks that were fetched. -/
def fetches (c : Crew) : List Task := c.log.filterMap (·.2.fetch?)

/-- The reports that were made. -/
def reports (c : Crew) : List Report := c.log.filterMap (·.2.report?)

/-- What a turn does when the source answers at once. -/
inductive Takes (src : Source σ) (setup : Setup) (now : Time) (c : Crew) (s : σ) :
    Crew → σ → Prop where
  | rest : Takes src setup now c s c s
  | request : Takes src setup now c s c.request s
  | notify : Takes src setup now c s c.notify s
  | ring : Takes src setup now c s c (src.ring now s)
  | obey {i : Nat} : c.stages[i]? = some .polling → c.stopping = true →
      Takes src setup now c s (c.put i .stopped) s
  | wake {i : Nat} {w : Wait} : c.stages[i]? = some (.pausing w) →
      Takes src setup now c s (c.put i .polling) s
  | fetch {i : Nat} : c.stages[i]? = some .polling → c.stopping = false →
      Takes src setup now c s
        ((c.put i .fetching).receive setup now i (src.fetch now s).1) (src.fetch now s).2
  | deliver {i : Nat} {t : Task} {w : Wait} : c.stages[i]? = some (.executing t w) →
      Takes src setup now c s
        ((c.put i (.reporting t)).settle now t i (src.send now t.compute s).1)
        (src.send now t.compute s).2

/-- Every turn does one of these things. -/
theorem takes_take (src : Source σ) (setup : Setup) (now : Time) (c : Crew) (s : σ) (turn : Turn) :
    c.Takes src setup now s (c.take src setup now s turn).1 (c.take src setup now s turn).2 := by
  cases turn with
  | loop i =>
    simp only [take, step]
    split
    · next hpolling =>
      cases hstopping : c.stopping with
      | true => simpa [fetch, ask, hstopping] using Takes.obey hpolling hstopping
      | false => simpa [fetch, ask, hstopping] using Takes.fetch hpolling hstopping
    · next hpausing => exact .wake hpausing
    · next hexecuting => exact .deliver hexecuting
    · exact .rest
  | request => exact .request
  | notify => exact .notify
  | source => exact .ring

/-- Turns are taken one row after the other. -/
theorem takeAll_append (c : Crew) (s : σ) (turns more : List (Time × Turn)) :
    c.takeAll src setup s (turns ++ more) =
      (c.takeAll src setup s turns).1.takeAll src setup (c.takeAll src setup s turns).2 more := by
  induction turns generalizing c s with
  | nil => rfl
  | cons turn turns ih => exact ih _ _

/-- What every turn keeps holds after a row of turns. -/
theorem takeAll_induction {Holds : Crew → σ → Prop}
    (hstep : ∀ now c s c' s', Holds c s → c.Takes src setup now s c' s' → Holds c' s')
    (h : Holds c s) (turns : List (Time × Turn)) :
    Holds (c.takeAll src setup s turns).1 (c.takeAll src setup s turns).2 := by
  induction turns generalizing c s with
  | nil => exact h
  | cons turn turns ih =>
    exact ih (hstep turn.1 c s _ _ h (takes_take src setup turn.1 c s turn.2))

/-! ## The log -/

/-- What holds of all loops still holds when one of them is put at a stage of which it holds. -/
theorem forall_mem_set {P : Stage → Prop} {stages : List Stage} (h : ∀ stage ∈ stages, P stage)
    {stage : Stage} (hstage : P stage) (i : Nat) : ∀ stage' ∈ stages.set i stage, P stage' := by
  intro stage' hstage'
  rcases List.mem_or_eq_of_mem_set hstage' with hold | rfl
  · exact h stage' hold
  · exact hstage

/-- The answer to a request puts the loop at a stage where it waits for no other. -/
theorem exists_stages_receive (setup : Setup) (now : Time) (i : Nat) (a : Fetched) (c : Crew) :
    ∃ stage, stage.isAnswered = true ∧ (c.receive setup now i a).stages = c.stages.set i stage := by
  cases a <;> exact ⟨_, rfl, rfl⟩

/-- The answer to a report is no request to stop. -/
theorem stopping_settle (now : Time) (t : Task) (i : Nat) (a : Receipt) (c : Crew) :
    (c.settle now t i a).stopping = c.stopping := by
  cases a <;> rfl

/-- A loop that has reported its task polls again, or it ends because the source crashed. -/
theorem stages_deliver (now : Time) (t : Task) (i : Nat) (a : Receipt) (c : Crew) :
    ((c.put i (.reporting t)).settle now t i a).stages = c.stages.set i .polling ∨
      ((c.put i (.reporting t)).settle now t i a).stages = c.stages.set i .stopped := by
  cases a
  case crashed => exact .inr (List.set_set _)
  all_goals exact .inl (List.set_set _)

/-- A loop that stays where it is is put there. -/
theorem exists_eq_set (stages : List Stage) (i : Nat) : ∃ stage, stages = stages.set i stage := by
  by_cases hlt : i < stages.length
  · exact ⟨stages[i], (List.set_getElem_self hlt).symm⟩
  · exact ⟨.stopped, (List.set_eq_of_length_le (Nat.le_of_not_lt hlt)).symm⟩

/-- A loop's step puts that loop at a stage and leaves the others where they are. -/
theorem exists_stages_step (src : Source σ) (setup : Setup) (now : Time) (i : Nat) (c : Crew)
    (s : σ) : ∃ stage, (c.step src setup now i s).1.stages = c.stages.set i stage := by
  rw [step]
  split
  · rw [fetch]
    split
    · exact ⟨_, rfl⟩
    · obtain ⟨stage, -, hstages⟩ := exists_stages_receive setup now i (src.fetch now s).1 (c.ask i)
      exact ⟨stage, hstages.trans (List.set_set _)⟩
  · exact ⟨.polling, rfl⟩
  · next t w _ =>
    exact (stages_deliver now t i (src.send now t.compute s).1 c).elim
      (fun h => ⟨.polling, h⟩) fun h => ⟨.stopped, h⟩
  · exact exists_eq_set c.stages i

/-- No loop waits for an answer, and the tasks that were fetched are those that were reported and
those in hand. -/
structure IsBalanced (c : Crew) : Prop where
  answered : ∀ stage ∈ c.stages, stage.isAnswered = true
  fetches_perm : (c.fetches.map Task.compute).Perm (c.reports ++ c.works.map (·.1.compute))

/-- Loops that start have fetched nothing. -/
theorem isBalanced_start (setup : Setup) : (start setup).IsBalanced where
  answered := fun stage hstage => List.eq_of_mem_replicate hstage ▸ rfl
  fetches_perm := by rw [works_start]; rfl

/-- The answer to a request keeps the balance. -/
theorem fetches_receive {i : Nat} (h : c.stages[i]? = some .fetching) (a : Fetched)
    (hperm : (c.fetches.map Task.compute).Perm (c.reports ++ c.works.map (·.1.compute))) :
    ((c.receive setup now i a).fetches.map Task.compute).Perm
      ((c.receive setup now i a).reports ++ (c.receive setup now i a).works.map (·.1.compute)) := by
  cases a with
  | task t =>
    have hgot := works_put_executing h rfl t
      (c.waitFor now (if setup.spendsCost then t.cost else 0))
    have hboth := (hperm.cons t.compute).trans List.perm_middle.symm
    exact hboth.trans ((hgot.map (·.1.compute)).symm.append_left _)
  | nothing | failed | crashed =>
    exact hperm.trans (((works_put_of_none h rfl rfl).map _).symm.append_left _)

/-- A turn keeps the balance of fetches and reports. -/
theorem IsBalanced.takes (h : c.IsBalanced) (htakes : c.Takes src setup now s c' s') :
    c'.IsBalanced := by
  cases htakes with
  | rest | ring => exact h
  | request => exact ⟨h.answered, h.fetches_perm⟩
  | notify =>
    refine ⟨?_, by rw [works_notify]; exact h.fetches_perm⟩
    simp only [notify, List.forall_mem_map]
    intro stage hstage
    have hanswered := h.answered stage hstage
    cases stage <;> first | rfl | contradiction
  | obey hpolling _ =>
    exact ⟨forall_mem_set h.answered rfl _,
      h.fetches_perm.trans (((works_put_of_none hpolling rfl rfl).map _).symm.append_left _)⟩
  | wake hpausing =>
    exact ⟨forall_mem_set h.answered rfl _,
      h.fetches_perm.trans (((works_put_of_none hpausing rfl rfl).map _).symm.append_left _)⟩
  | @fetch i hpolling _ =>
    have hfetching : (c.put i .fetching).stages[i]? = some .fetching := getElem?_put hpolling
    have hasked : (c.put i .fetching).works.Perm c.works := works_put_of_none hpolling rfl rfl
    obtain ⟨stage, hstage, hstages⟩ :=
      exists_stages_receive setup now i (src.fetch now s).1 (c.put i .fetching)
    refine ⟨?_, fetches_receive hfetching _
      (h.fetches_perm.trans ((hasked.map _).symm.append_left _))⟩
    rw [hstages, put, List.set_set]
    exact forall_mem_set h.answered hstage i
  | @deliver i t w hexecuting =>
    refine ⟨?_, ?_⟩
    · rcases stages_deliver now t i (src.send now t.compute s).1 c with hstages | hstages
      all_goals
        rw [hstages]
        exact forall_mem_set h.answered rfl i
    · rw [fetches, reports, log_settle]
      have hworks := (works_deliver hexecuting now (src.send now t.compute s).1).map (·.1.compute)
      exact h.fetches_perm.trans ((hworks.append_left _).trans List.perm_middle)

/-! ## After the request to stop -/

/-- The flag stays set. -/
theorem Takes.stopping (h : c.stopping = true) (htakes : c.Takes src setup now s c' s') :
    c'.stopping = true := by
  cases htakes with
  | rest | notify | ring | obey | wake => exact h
  | request => rfl
  | fetch _ hrunning => exact absurd (h.symm.trans hrunning) (by decide)
  | deliver => exact (stopping_settle ..).trans h

/-- The flag stays set along a row of turns. -/
theorem stopping_takeAll (h : c.stopping = true) (turns : List (Time × Turn)) :
    (c.takeAll src setup s turns).1.stopping = true :=
  takeAll_induction (fun _ c _ _ _ (hc : c.stopping = true) htakes => htakes.stopping hc) h turns

/-- No turn but its own moves a loop that does not pause. -/
theorem getElem?_take_of_ne {i : Nat} {stage : Stage} (h : c.stages[i]? = some stage)
    (hwake : stage.wake = stage) {turn : Turn} (hturn : turn ≠ .loop i) :
    (c.take src setup now s turn).1.stages[i]? = some stage := by
  cases turn with
  | loop j =>
    have hother : j ≠ i := fun hij => hturn (congrArg Turn.loop hij)
    obtain ⟨stage', hstages⟩ := exists_stages_step src setup now j c s
    rw [take, hstages, List.getElem?_set_ne hother, h]
  | notify => rw [take, notify, List.getElem?_map, h, Option.map_some, hwake]
  | request | source => exact h

/-- A loop that has ended stays so. -/
theorem getElem?_takeAll_of_stopped {i : Nat} (h : c.stages[i]? = some .stopped)
    (turns : List (Time × Turn)) :
    (c.takeAll src setup s turns).1.stages[i]? = some .stopped := by
  induction turns generalizing c s with
  | nil => exact h
  | cons turn turns ih =>
    refine ih ?_
    by_cases hown : turn.2 = .loop i
    · rw [hown, take, step, h]
      exact h
    · exact getElem?_take_of_ne h rfl hown

/-- A loop of a stopping worker that polls does so until its next turn, by which it ends. -/
theorem getElem?_takeAll_of_polling {i : Nat} (hstopping : c.stopping = true)
    (h : c.stages[i]? = some .polling) (turns : List (Time × Turn)) :
    (c.takeAll src setup s turns).1.stages[i]? =
      some (if .loop i ∈ turns.map (·.2) then .stopped else .polling) := by
  induction turns generalizing c s with
  | nil => exact h
  | cons turn turns ih =>
    rw [List.map_cons]
    by_cases hown : turn.2 = .loop i
    · have hended : (c.take src setup turn.1 s turn.2).1.stages[i]? = some .stopped := by
        rw [hown, take, step, h]
        simpa [fetch, ask, hstopping] using getElem?_put h
      rw [if_pos (hown ▸ List.mem_cons_self)]
      exact getElem?_takeAll_of_stopped hended turns
    · have hflag := (takes_take src setup turn.1 c s turn.2).stopping hstopping
      have hstill : (c.take src setup turn.1 s turn.2).1.stages[i]? = some .polling :=
        getElem?_take_of_ne h rfl hown
      have hlater : .loop i ∈ turn.2 :: turns.map (·.2) ↔ .loop i ∈ turns.map (·.2) :=
        List.mem_cons.trans (or_iff_right fun h => hown h.symm)
      rw [if_congr hlater rfl rfl]
      exact ih hflag hstill

/-- No loop pauses when those that did have been woken. -/
theorem pausing_notMem_notify (w : Wait) (c : Crew) : .pausing w ∉ c.notify.stages := by
  intro hmem
  obtain ⟨stage, -, hwoken⟩ := List.mem_map.mp hmem
  cases stage <;> contradiction

/-- No loop of a stopping worker begins to pause. -/
theorem Takes.pausing_mem (hstopping : c.stopping = true) (htakes : c.Takes src setup now s c' s')
    {w : Wait} (h : .pausing w ∈ c'.stages) : .pausing w ∈ c.stages := by
  have hset {i : Nat} {stage : Stage} (hne : .pausing w ≠ stage)
      (hmem : .pausing w ∈ c.stages.set i stage) : .pausing w ∈ c.stages :=
    (List.mem_or_eq_of_mem_set hmem).resolve_right hne
  cases htakes with
  | rest | request | ring => exact h
  | notify => exact absurd h (pausing_notMem_notify w c)
  | obey | wake => exact hset (by simp) h
  | fetch _ hrunning => exact absurd (hstopping.symm.trans hrunning) (by decide)
  | @deliver i t _ _ =>
    rcases stages_deliver now t i (src.send now t.compute s).1 c with hstages | hstages
    all_goals exact hset (by simp) (hstages ▸ h)

/-- Where no loop of a stopping worker pauses, none does so again. -/
theorem pausing_notMem_takeAll (hstopping : c.stopping = true) {w : Wait}
    (h : .pausing w ∉ c.stages) (turns : List (Time × Turn)) :
    .pausing w ∉ (c.takeAll src setup s turns).1.stages := by
  refine (takeAll_induction (fun _ c _ _ _ (hc : c.stopping = true ∧ Stage.pausing w ∉ c.stages)
    htakes => ?_) ⟨hstopping, h⟩ turns).2
  exact ⟨htakes.stopping hc.1, fun hmem => hc.2 (htakes.pausing_mem hc.1 hmem)⟩

/-- A worker that is stopping when its loops are woken has none that pauses from then on, whatever
turns come before and after. -/
theorem pausing_notMem_takeAll_of_notify (hstopping : c.stopping = true) (w : Wait)
    {turns : List (Time × Turn)} (hnotify : .notify ∈ turns.map (·.2)) :
    .pausing w ∉ (c.takeAll src setup s turns).1.stages := by
  induction turns generalizing c s with
  | nil => exact absurd hnotify List.not_mem_nil
  | cons turn turns ih =>
    have hflag := (takes_take src setup turn.1 c s turn.2).stopping hstopping
    rw [List.map_cons, List.mem_cons] at hnotify
    rcases hnotify with hnow | hlater
    · refine pausing_notMem_takeAll hflag ?_ turns
      rw [← hnow]
      exact pausing_notMem_notify w c
    · exact ih hflag hlater

/-- The worker has been stopping since it had some tasks in hand, and nothing was noted since but
the reports of those of them that are in hand no more. -/
structure IsWinding (before c : Crew) : Prop where
  stopping : c.stopping = true
  log_eq : ∃ later, c.log = later ++ before.log ∧
    (before.works.map fun p => some p.1.compute).Perm
      (later.map (·.2.report?) ++ c.works.map fun p => some p.1.compute)

/-- At the request nothing has been reported since. -/
theorem isWinding_request (c : Crew) : c.IsWinding c.request := ⟨rfl, [], rfl, .refl _⟩

/-- A stopping worker that has the same in hand and has noted nothing has reported nothing. -/
theorem IsWinding.of_perm {before : Crew} (h : before.IsWinding c)
    (hstopping : c'.stopping = c.stopping) (hlog : c'.log = c.log)
    (hworks : c'.works.Perm c.works) : before.IsWinding c' := by
  obtain ⟨hstop, later, hlater, hperm⟩ := h
  exact ⟨hstopping.trans hstop, later, hlog.trans hlater,
    hperm.trans ((hworks.map _).symm.append_left _)⟩

/-- A stopping worker only reports. -/
theorem IsWinding.takes {before : Crew} (h : before.IsWinding c)
    (htakes : c.Takes src setup now s c' s') : before.IsWinding c' := by
  cases htakes with
  | rest | ring => exact h
  | request => exact h.of_perm h.stopping.symm rfl (.refl _)
  | notify => exact h.of_perm rfl rfl (.of_eq (works_notify c))
  | obey hpolling _ => exact h.of_perm rfl rfl (works_put_of_none hpolling rfl rfl)
  | wake hpausing => exact h.of_perm rfl rfl (works_put_of_none hpausing rfl rfl)
  | fetch _ hrunning => exact absurd (h.stopping.symm.trans hrunning) (by decide)
  | @deliver i t w hexecuting =>
    have hworks := (works_deliver hexecuting now (src.send now t.compute s).1).map
      fun p => some p.1.compute
    obtain ⟨hstop, later, hlater, hperm⟩ := h
    refine ⟨?_, (now, .reported t.compute (src.send now t.compute s).1) :: later, ?_, ?_⟩
    · exact (stopping_settle ..).trans hstop
    · rw [log_settle, put, hlater]
      rfl
    · exact hperm.trans ((hworks.append_left _).trans List.perm_middle)

/-! ## Active tasks -/

/-- A turn loses no report unless the source crashes on it. -/
theorem lost_takes (hsend : ∀ r, (src.send now r s).1 ≠ .crashed)
    (htakes : c.Takes src setup now s c' s') : c'.lost = c.lost := by
  cases htakes with
  | rest | request | notify | ring | obey | wake => rfl
  | fetch => rw [lost_receive, lost_put]
  | @deliver i t w _ =>
    have hanswer :
        (Note.reported t.compute (src.send now t.compute s).1).isCrashedReport = false := by
      cases hsent : (src.send now t.compute s).1 with
      | crashed => exact absurd hsent (hsend t.compute)
      | _ => rfl
    rw [lost_settle, hanswer, lost_put]
    rfl

/-- Where no loop waits for an answer, the busy ones are those with a task in hand. -/
theorem IsBalanced.countP_isBusy (h : c.IsBalanced) :
    c.stages.countP Stage.isBusy = c.works.length := by
  rw [works, List.length_filterMap_eq_countP]
  refine List.countP_congr fun stage hstage => ?_
  have hanswered := h.answered stage hstage
  cases stage <;> first | exact Iff.rfl | contradiction

end Crew

/-! ## Virtual time -/

namespace Shift

variable {σ : Type} {src : Source σ} {setup : Setup} {s s' s'' : Shift σ}

/-- A loop that goes on leaves the others where they are. -/
theorem exists_stages_goOn (i budget : Nat) (s : Shift σ) :
    ∃ stage, (s.goOn src setup i budget).crew.stages = s.crew.stages.set i stage := by
  refine goOn_induction (fun s' (h : ∃ stage, s'.crew.stages = s.crew.stages.set i stage) _ => ?_)
    (Crew.exists_eq_set s.crew.stages i) budget
  obtain ⟨stage, hstages⟩ := h
  obtain ⟨stage', hstages'⟩ := Crew.exists_stages_step src setup s'.now i s'.crew s'.source
  exact ⟨stage', by rw [step, hstages', hstages, List.set_set]⟩

/-- The moment at which a worker is asked to stop. -/
theorem now_runUntil (now stopAt : Time) (x : σ) :
    (Worker.runUntil src setup now stopAt x).now = max now stopAt := by
  by_cases hpast : stopAt ≤ now
  · simp only [Worker.runUntil, if_pos hpast]
    exact (Nat.max_eq_left hpast).symm
  · have hlater : now < stopAt := Nat.lt_of_not_le hpast
    obtain ⟨r, -, -, hruns, -⟩ : ∃ r : Shift σ, True ∧ r.now < stopAt ∧
        Worker.runUntil src setup now stopAt x = { r.catchUp src setup with now := stopAt } ∧ _ :=
      exists_runUntil_eq (fun _ _ (_ : True) _ => trivial) trivial hlater
    rw [hruns, Nat.max_eq_right (Nat.le_of_lt hlater)]

/-- A worker goes from one shift to another by taking turns, at whatever moments. -/
def Reaches (src : Source σ) (setup : Setup) (s s' : Shift σ) : Prop :=
  ∃ turns, s.crew.takeAll src setup s.source turns = (s'.crew, s'.source)

namespace Reaches

/-- What every turn keeps holds of every shift that is reached. -/
theorem induction {Holds : Crew → σ → Prop} (h : s.Reaches src setup s')
    (hstep : ∀ now c x c' x', Holds c x → c.Takes src setup now x c' x' → Holds c' x')
    (hs : Holds s.crew s.source) : Holds s'.crew s'.source := by
  obtain ⟨turns, hturns⟩ := h
  have hall := Crew.takeAll_induction hstep hs turns
  rwa [hturns] at hall

/-- A worker accounts for what it fetched; active are the tasks in hand and those whose reports
crashed. -/
theorem accounts {now : Time} {x : σ} (h : Reaches src setup ⟨now, Crew.start setup, x⟩ s) :
    s.crew.IsBalanced ∧ s.crew.stages.length = setup.loops ∧
      s.crew.active = s.crew.works.length + s.crew.lost := by
  have hbalanced : s.crew.IsBalanced :=
    h.induction (fun _ c _ c' _ (hc : c.IsBalanced) htakes => hc.takes htakes)
      (Crew.isBalanced_start setup)
  obtain ⟨turns, hturns⟩ := h
  obtain ⟨moves, hmoves⟩ := Crew.exists_moves_takeAll src setup (Crew.start setup) x turns
  have hcrew := (congrArg Prod.fst hturns).symm.trans hmoves
  dsimp only at hcrew
  have haccounts : s.crew.Accounts _ := hcrew ▸ (Crew.accounts_start setup).moveAll setup moves
  refine ⟨hbalanced, ?_, hbalanced.countP_isBusy ▸ haccounts.active_eq⟩
  rw [hcrew, Crew.length_moveAll, Crew.start, List.length_replicate]

/-- No turn is needed to move the clock. -/
theorem clock (s : Shift σ) (now : Time) : s.Reaches src setup { s with now := now } := ⟨[], rfl⟩

theorem trans (h : s.Reaches src setup s') (h' : s'.Reaches src setup s'') :
    s.Reaches src setup s'' := by
  obtain ⟨turns, hturns⟩ := h
  obtain ⟨more, hmore⟩ := h'
  exact ⟨turns ++ more, by rw [Crew.takeAll_append, hturns, hmore]⟩

/-- One turn is a row of turns. -/
theorem take (s : Shift σ) (turn : Turn) : s.Reaches src setup
    ⟨s.now, (s.crew.take src setup s.now s.source turn).1,
      (s.crew.take src setup s.now s.source turn).2⟩ :=
  ⟨[(s.now, turn)], rfl⟩

/-- A loop that goes on takes its turns. -/
theorem goOn (i budget : Nat) (s : Shift σ) : s.Reaches src setup (s.goOn src setup i budget) :=
  goOn_induction (fun s' h _ => h.trans (take s' (.loop i))) (clock s s.now) budget

/-- Loops that go on because they poll take their turns. -/
theorem rouseAll (s : Shift σ) : s.Reaches src setup (s.rouseAll src setup) :=
  rouseAll_induction (fun i budget s' h _ => h.trans (goOn i budget s')) (clock s s.now)

/-- An alarm is handled by turns. -/
theorem handle (a : Alarm (Option Nat)) (s : Shift σ) :
    s.Reaches src setup (s.handle src setup a) := by
  refine (clock s (max s.now a.due)).trans ?_
  cases hcall : a.call with
  | none =>
    simp only [Shift.handle, hcall]
    exact take ⟨max s.now a.due, s.crew, s.source⟩ .source
  | some i =>
    simp only [Shift.handle, hcall]
    exact (take ⟨max s.now a.due, s.crew, s.source⟩ (.loop i)).trans (goOn i _ _)

/-- A worker in virtual time takes turns. -/
theorem handleAll (within : Shift σ → Time → Bool) (budget : Nat) (s : Shift σ) :
    s.Reaches src setup (s.handleAll src setup within budget) :=
  handleAll_induction (fun s' a h _ _ => h.trans (handle a s')) (clock s s.now) budget

/-- A worker that runs until it is asked to stop takes turns. -/
theorem runUntil (now stopAt : Time) (x : σ) :
    Reaches src setup ⟨now, Crew.start setup, x⟩ (Worker.runUntil src setup now stopAt x) := by
  by_cases hpast : stopAt ≤ now
  · simp only [Worker.runUntil, if_pos hpast]
    exact clock _ _
  · obtain ⟨r, hr, -, hruns, -⟩ := exists_runUntil_eq
      (fun s a (h : Reaches src setup ⟨now, Crew.start setup, x⟩ s) _ =>
        h.trans ((handleAll _ _ s).trans (clock _ _)))
      (rouseAll _) (Nat.lt_of_not_le hpast)
    rw [hruns]
    exact hr.trans ((handleAll _ _ r).trans (clock _ _))

/-- A worker that was asked to stop takes turns, the first two of which are the request and the
waking of loops. -/
theorem halt (s : Shift σ) : s.Reaches src setup (s.halt src setup) :=
  (take s .request).trans ((take _ .notify).trans (rouseAll _))

/-- A worker that is asked to stop and waits for its tasks takes turns. -/
theorem shutDown (s : Shift σ) : s.Reaches src setup (Worker.shutDown src setup s) :=
  (halt s).trans ((handleAll _ _ _).trans (clock _ _))

end Reaches

/-- A worker goes from one shift to another by turns of its loops, without time passing. -/
def TurnsTo (src : Source σ) (setup : Setup) (s s' : Shift σ) : Prop :=
  s'.now = s.now ∧ ∃ is : List Nat, s.crew.takeAll src setup s.source
    (is.map fun i => (s.now, .loop i)) = (s'.crew, s'.source)

namespace TurnsTo

theorem refl (s : Shift σ) : s.TurnsTo src setup s := ⟨rfl, [], rfl⟩

/-- A loop's step is one more turn. -/
theorem step (h : s.TurnsTo src setup s') (i : Nat) :
    s.TurnsTo src setup (s'.step src setup i) := by
  obtain ⟨hnow, is, hturns⟩ := h
  refine ⟨hnow, is ++ [i], ?_⟩
  rw [List.map_append, Crew.takeAll_append, hturns, ← hnow]
  rfl

/-- Loops that go on because they poll do so without time passing. -/
theorem rouseAll (s : Shift σ) : s.TurnsTo src setup (s.rouseAll src setup) :=
  rouseAll_induction (fun _ budget _ h _ => goOn_induction (fun _ h' _ => h'.step _) h budget)
    (refl s)

end TurnsTo

end Shift

end Piecework
