import Mathlib.Data.List.Perm.Basic
import Piecework.Proofs.Passage
import Piecework.Proofs.Sources
import Piecework.Proofs.Turns

/-!
# Shutting down

The request to stop sets the flag and wakes the loops that pause. Whatever turns come between the
two, no loop misses them: an idle loop has ended when it has had a turn after the waking, and in
virtual time it takes that turn before any time passes. The others ring in the order of their
moments, report and end, so a worker that stops only has to sweep the tasks in hand, up to the end
of the grace period. The budget of the sweep is enough because every alarm that rings ends a loop or
is one of those that the source can still ring.
-/

namespace Piecework

namespace Stage

/-- Whether a loop is idle: it polls or pauses. -/
def isIdle : Stage → Bool
  | polling | pausing _ => true
  | _ => false

/-- Whether a loop is idle or has ended. -/
def isSpare (s : Stage) : Bool := s.isIdle || s.isStopped

/-- A loop that polls looks at the flag, finds it set and ends. -/
def obey : Stage → Stage
  | polling => stopped
  | s => s

/-- A loop that is idle polls when it has been woken. -/
theorem wake_of_isIdle {stage : Stage} (h : stage.isIdle = true) : stage.wake = polling := by
  cases stage <;> first | rfl | contradiction

/-- Of the loops that have been woken, those that were idle obey. -/
theorem obey_wake (stage : Stage) :
    stage.wake.obey = if stage.isIdle then stopped else stage := by
  cases stage <;> rfl

end Stage

/-- Changing the places behind the first leaves the first. -/
theorem foldl_modify_cons {α : Type} (f : α → α) (a : α) (l : List α) (is : List Nat) :
    is.foldl (fun l i => l.modify (i + 1) f) (a :: l) =
      a :: is.foldl (fun l i => l.modify i f) l := by
  induction is generalizing l with
  | nil => rfl
  | cons i is ih => exact ih (l.modify i f)

/-- Changing one place after the other changes all. -/
theorem foldl_modify_range {α : Type} (f : α → α) (l : List α) :
    (List.range l.length).foldl (fun l i => l.modify i f) l = l.map f := by
  induction l with
  | nil => rfl
  | cons a l ih =>
    rw [List.length_cons, List.range_succ_eq_map, List.foldl_cons, List.foldl_map,
      List.modify_zero_cons]
    exact (foldl_modify_cons f (f a) l _).trans (congrArg (f a :: ·) ih)

namespace Crew

variable {σ : Type} {src : Source σ} {setup : Setup} {now : Time} {c c' : Crew} {x x' : σ}

/-- Every turn keeps a source to the states with the property. -/
theorem Takes.source {P : σ → Prop} {rings : σ → Nat} (hsrc : src.Counts P rings)
    (htakes : c.Takes src setup now x c' x') (hx : P x) : P x' := by
  cases htakes with
  | rest | request | notify | obey | wake => exact hx
  | ring => exact hsrc.ring now x hx
  | fetch => exact hsrc.fetch now x hx
  | deliver => exact hsrc.send now _ x hx

/-- The worker was asked to stop, and every loop has ended or is executing a task. -/
structure IsEnding (c : Crew) : Prop where
  stopping : c.stopping = true
  ended : ∀ stage ∈ c.stages, stage.isStopped = true ∨ ∃ t w, stage = .executing t w

/-- After the request a loop that was idle polls, and ends by its next turn. -/
theorem getElem?_takeAll_stop {i : Nat} {stage : Stage} (h : c.stages[i]? = some stage)
    (hidle : stage.isIdle = true) (turns : List (Time × Turn)) :
    (c.stop.takeAll src setup x turns).1.stages[i]? =
      some (if .loop i ∈ turns.map (·.2) then .stopped else .polling) := by
  have hwoken : c.stop.stages[i]? = some .polling := by
    rw [stop, notify, request, List.getElem?_map, h, Option.map_some, Stage.wake_of_isIdle hidle]
  exact getElem?_takeAll_of_polling rfl hwoken turns

/-- No turn gives a task to a loop of a stopping worker that is idle or has ended. -/
theorem exists_getElem?_take_of_spare (hstopping : c.stopping = true) {i : Nat} {stage : Stage}
    (h : c.stages[i]? = some stage) (hspare : stage.isSpare = true) (turn : Turn) :
    ∃ stage', (c.take src setup now x turn).1.stages[i]? = some stage' ∧ stage'.isSpare = true := by
  cases turn with
  | loop j =>
    by_cases hown : j = i
    · subst hown
      cases stage with
      | polling =>
        refine ⟨.stopped, ?_, rfl⟩
        simpa [take, step, h, fetch, ask, hstopping] using getElem?_put h
      | pausing w =>
        refine ⟨.polling, ?_, rfl⟩
        simpa [take, step, h] using getElem?_put h
      | stopped => exact ⟨.stopped, by simp [take, step, h], rfl⟩
      | fetching | executing _ _ | reporting _ => contradiction
    · obtain ⟨stage', hstages⟩ := exists_stages_step src setup now j c x
      exact ⟨stage, by rw [take, hstages, List.getElem?_set_ne hown, h], hspare⟩
  | notify =>
    refine ⟨stage.wake, by rw [take, notify, List.getElem?_map, h, Option.map_some], ?_⟩
    cases stage <;> first | rfl | contradiction
  | request | source => exact ⟨stage, h, hspare⟩

/-- A loop of a stopping worker that is idle or has ended stays so. -/
theorem exists_getElem?_takeAll_of_spare (hstopping : c.stopping = true) {i : Nat} {stage : Stage}
    (h : c.stages[i]? = some stage) (hspare : stage.isSpare = true) (turns : List (Time × Turn)) :
    ∃ stage', (c.takeAll src setup x turns).1.stages[i]? = some stage' ∧ stage'.isSpare = true := by
  induction turns generalizing c x stage with
  | nil => exact ⟨stage, h, hspare⟩
  | cons turn turns ih =>
    have hflag := (takes_take src setup turn.1 c x turn.2).stopping hstopping
    obtain ⟨stage', hstage', hspare'⟩ := exists_getElem?_take_of_spare hstopping h hspare turn.2
    exact ih hflag hstage' hspare'

/-- A loop that is idle when the flag is set has ended when it has had a turn of its own after the
loops were woken, whatever turns come before and in between. -/
theorem getElem?_takeAll_of_notify (hstopping : c.stopping = true) {i : Nat} {stage : Stage}
    (h : c.stages[i]? = some stage) (hidle : stage.isIdle = true) {turns later : List (Time × Turn)}
    (hnotify : .notify ∈ turns.map (·.2)) (hown : .loop i ∈ later.map (·.2)) :
    (c.takeAll src setup x (turns ++ later)).1.stages[i]? = some .stopped := by
  have hflag : (c.takeAll src setup x turns).1.stopping = true := stopping_takeAll hstopping turns
  obtain ⟨stage', hstage', hspare⟩ : ∃ stage', (c.takeAll src setup x turns).1.stages[i]? =
      some stage' ∧ stage'.isSpare = true :=
    exists_getElem?_takeAll_of_spare hstopping h (Bool.or_eq_true_iff.mpr (.inl hidle)) turns
  rw [takeAll_append]
  cases stage' with
  | polling => rw [getElem?_takeAll_of_polling hflag hstage', if_pos hown]
  | stopped => exact getElem?_takeAll_of_stopped hstage' later
  | pausing w =>
    exact absurd (List.mem_of_getElem? hstage')
      (pausing_notMem_takeAll_of_notify hstopping w hnotify)
  | fetching | executing _ _ | reporting _ => contradiction

/-- A loop that ends leaves the others ending. -/
theorem IsEnding.of_set (h : c.IsEnding) {i : Nat} (hstopping : c'.stopping = true)
    (hstages : c'.stages = c.stages.set i .stopped) : c'.IsEnding :=
  ⟨hstopping, hstages ▸ forall_mem_set h.ended (.inl rfl) i⟩

/-- All loops of a worker that is ending have ended when nothing is in hand. -/
theorem IsEnding.isDone_iff (h : c.IsEnding) : c.isDone = true ↔ c.works = [] := by
  rw [isDone, List.all_eq_true, works, List.filterMap_eq_nil_iff]
  refine forall₂_congr fun stage hstage => ?_
  rcases h.ended stage hstage with hstopped | ⟨t, w, rfl⟩
  · cases stage <;> first | contradiction | simp [Stage.isStopped, Stage.work?]
  · simp [Stage.isStopped, Stage.work?]

/-- A worker that is ending is not done while something is in hand. -/
theorem IsEnding.isDone_eq_false (h : c.IsEnding) {p : Task × Wait} (hp : p ∈ c.works) :
    c.isDone = false := by
  rw [← Bool.not_eq_true, h.isDone_iff]
  exact List.ne_nil_of_mem hp

/-- A loop that rings while the worker is ending executes a task, and none is due earlier. -/
theorem IsEnding.exists_work (h : c.IsEnding) {a : Alarm Nat} (ha : c.alarm? = some a) :
    (∃ t w, c.stages[a.call]? = some (.executing t w) ∧ w.due = a.due) ∧
      ∀ p ∈ c.works, a.due ≤ p.2.due := by
  obtain ⟨⟨stage, w, hstage, hw, hdue⟩, hleast⟩ := alarm?_spec ha
  refine ⟨?_, fun p hp => hleast _ (mem_works_iff.mp hp) p.2 rfl⟩
  rcases h.ended stage (List.mem_of_getElem? hstage) with hstopped | ⟨t, w', rfl⟩
  · cases stage <;> contradiction
  · obtain rfl := Option.some.inj hw
    exact ⟨t, w', hstage, hdue⟩

/-- Where no loop rings, nothing is in hand. -/
theorem works_eq_nil_of_alarm? (h : c.alarm? = none) : c.works = [] := by
  refine List.eq_nil_iff_forall_not_mem.mpr fun p hp => ?_
  exact absurd (wait?_eq_none_of_alarm? h (mem_works_iff.mp hp)) (by simp [Stage.wait?])

end Crew

namespace Shift

variable {σ : Type} {src : Source σ} {setup : Setup} {s s' r : Shift σ} {limit : Time}

/-- The longest time that a task in hand still takes. -/
def remaining (s : Shift σ) : Nat := (s.crew.works.map fun p => p.2.due - s.now).foldr max 0

/-- What still takes at most some time is over when that has passed. -/
theorem remaining_le_iff {n : Nat} :
    s.remaining ≤ n ↔ ∀ p ∈ s.crew.works, p.2.due ≤ s.now + n := by
  rw [remaining]
  induction s.crew.works with
  | nil => simp
  | cons p works ih =>
    rw [List.map_cons, List.foldr_cons, Nat.max_le, ih, List.forall_mem_cons,
      Nat.sub_le_iff_le_add']

/-! ## One alarm -/

/-- A loop that has ended does not go on. -/
theorem goOn_of_stopped {i : Nat} (h : s.crew.stages[i]? = some .stopped) (budget : Nat) :
    s.goOn src setup i budget = s := by
  cases budget with
  | zero => rfl
  | succ budget => rw [goOn, if_pos (by simp [h, Stage.rests])]

/-- A loop of a stopping worker that polls ends. -/
theorem goOn_of_polling {i : Nat} (h : s.crew.stages[i]? = some .polling)
    (hstopping : s.crew.stopping = true) (budget : Nat) :
    s.goOn src setup i (budget + 1) = { s with crew := s.crew.put i .stopped } := by
  have hended : (s.crew.put i .stopped).stages[i]? = some .stopped := Crew.getElem?_put h
  have hstep : s.step src setup i = { s with crew := s.crew.put i .stopped } := by
    simp [step, Crew.step, h, Crew.fetch, Crew.ask, hstopping]
  rw [goOn, if_neg (by simp [h, Stage.rests]), hstep]
  exact goOn_of_stopped hended budget

/-! ## The request -/

/-- A loop of a stopping worker obeys if it polls. -/
theorem rouse_of_stopping (hstopping : s.crew.stopping = true) (i : Nat) :
    s.rouse src setup i =
      { s with crew := { s.crew with stages := s.crew.stages.modify i Stage.obey } } := by
  rw [rouse, List.modify_eq_set_getElem?]
  cases hstage : s.crew.stages[i]? with
  | none => rfl
  | some stage =>
    obtain ⟨hlt, hget⟩ := List.getElem?_eq_some_iff.mp hstage
    have hkept : s.crew.stages.set i stage = s.crew.stages := hget ▸ List.set_getElem_self hlt
    cases stage with
    | polling => rw [if_pos rfl, stretch, goOn_of_polling hstage hstopping]; rfl
    | _ => simp [Stage.obey, hkept]

/-- Of some loops of a stopping worker, those that poll obey, and nothing else changes. -/
theorem foldl_rouse_of_stopping (hstopping : s.crew.stopping = true) (is : List Nat) :
    is.foldl (rouse src setup) s = { s with crew := { s.crew with
      stages := is.foldl (fun stages i => stages.modify i Stage.obey) s.crew.stages } } := by
  induction is generalizing s with
  | nil => rfl
  | cons i is ih =>
    rw [List.foldl_cons, rouse_of_stopping hstopping]
    exact ih hstopping

/-- The request to stop ends the loops that are idle, and changes nothing else but the flag. -/
theorem halt_eq (s : Shift σ) : s.halt src setup = { s with crew := { s.crew with
    stopping := true
    stages := s.crew.stages.map fun stage => if stage.isIdle then .stopped else stage } } := by
  have hstages : s.crew.stop.stages.map Stage.obey =
      s.crew.stages.map fun stage => if stage.isIdle then .stopped else stage := by
    simp only [Crew.stop, Crew.notify, Crew.request, List.map_map]
    exact List.map_congr_left fun stage _ => stage.obey_wake
  rw [halt, rouseAll, foldl_rouse_of_stopping rfl, foldl_modify_range, hstages]
  rfl

/-- The request to stop takes no time, notes nothing and leaves every task in hand. -/
theorem same_halt (src : Source σ) (setup : Setup) (s : Shift σ) :
    let r := s.halt src setup
    r.now = s.now ∧ r.crew.log = s.crew.log ∧ r.crew.works = s.crew.works := by
  intro r
  have hr : r = _ := halt_eq s
  refine ⟨by rw [hr], by rw [hr], ?_⟩
  rw [hr, Crew.works, Crew.works, List.filterMap_map]
  refine List.filterMap_congr fun stage _ => ?_
  cases stage <;> rfl

/-- At the request, loops that poll or pause end. -/
theorem isEnding_halt (h : ∀ stage ∈ s.crew.stages, stage.isAnswered = true) :
    (s.halt src setup).crew.IsEnding := by
  rw [halt_eq]
  refine ⟨rfl, ?_⟩
  simp only [List.forall_mem_map]
  intro stage hstage
  have hanswered := h stage hstage
  cases stage with
  | executing t w => exact .inr ⟨t, w, rfl⟩
  | polling | pausing _ | stopped => exact .inl rfl
  | fetching | reporting _ => contradiction

/-- When the moment of a task in hand has come, its loop reports it and ends. -/
theorem handle_executing (hstopping : s.crew.stopping = true) {a : Alarm (Option Nat)} {i : Nat}
    (hcall : a.call = some i) {t : Task} {w : Wait}
    (h : s.crew.stages[i]? = some (.executing t w)) :
    let r := s.handle src setup a
    r.now = max s.now a.due ∧ r.crew.stages = s.crew.stages.set i .stopped ∧
      r.crew.stopping = true ∧
      (∃ answer, r.crew.log = (max s.now a.due, .reported t.compute answer) :: s.crew.log) ∧
      r.source = (src.send (max s.now a.due) t.compute s.source).2 := by
  intro r
  have hlt : i < s.crew.stages.length := (List.getElem?_eq_some_iff.mp h).1
  let x := src.send (max s.now a.due) t.compute s.source
  let c := (s.crew.put i (.reporting t)).settle (max s.now a.due) t i x.1
  have hr : r = goOn src setup i (2 * src.bound s.source + 2 + 1) ⟨max s.now a.due, c, x.2⟩ := by
    simp [r, handle, hcall, step, Crew.step, h, Crew.deliver, stretch, c, x]
  have hlog : c.log = (max s.now a.due, .reported t.compute x.1) :: s.crew.log :=
    Crew.log_settle ..
  have hstop : c.stopping = true := (Crew.stopping_settle ..).trans hstopping
  rcases Crew.stages_deliver (max s.now a.due) t i x.1 s.crew with hpolling | hended
  · have hpolls : c.stages[i]? = some .polling := by
      rw [hpolling, List.getElem?_set_self hlt]
    rw [hr, goOn_of_polling hpolls hstop]
    refine ⟨rfl, ?_, hstop, ⟨x.1, hlog⟩, rfl⟩
    rw [Crew.put, hpolling, List.set_set]
  · have hends : c.stages[i]? = some .stopped := by
      rw [hended, List.getElem?_set_self hlt]
    rw [hr, goOn_of_stopped hends]
    exact ⟨rfl, hended, hstop, ⟨x.1, hlog⟩, rfl⟩

/-- What rings next while the worker is ending is an alarm of the source, or a loop that reports its
task and ends. Nothing in hand is due earlier. -/
theorem handle_cases (setup : Setup) (hs : s.crew.IsEnding) {a : Alarm (Option Nat)}
    (h : s.next? src = some a) :
    let s' := s.handle src setup a
    (∀ p ∈ s.crew.works, a.due ≤ p.2.due) ∧ s'.now = max s.now a.due ∧ s'.crew.IsEnding ∧
      ((s'.crew = s.crew ∧ s'.source = src.ring (max s.now a.due) s.source ∧
          ∃ b, src.alarm? s.source = some b ∧ b.due = a.due) ∨
        ∃ t w answer, w.due = a.due ∧ s.crew.works.Perm ((t, w) :: s'.crew.works) ∧
          s'.crew.log = (max s.now a.due, .reported t.compute answer) :: s.crew.log ∧
          s'.source = (src.send (max s.now a.due) t.compute s.source).2) := by
  intro s'
  obtain ⟨hcall, -, hfirst⟩ := next?_cases h
  have hleast : ∀ p ∈ s.crew.works, a.due ≤ p.2.due := fun p hp => by
    cases hcrew : s.crew.alarm? with
    | none => exact absurd (Crew.works_eq_nil_of_alarm? hcrew ▸ hp) List.not_mem_nil
    | some b => exact Nat.le_trans (hfirst b hcrew) ((hs.exists_work hcrew).2 p hp)
  refine ⟨hleast, ?_⟩
  rcases hcall with ⟨b, hb, hdue, hnone⟩ | ⟨b, hb, hdue, hsome⟩
  · have hs' : s' = ⟨max s.now a.due, s.crew, src.ring (max s.now a.due) s.source⟩ := by
      simp only [s', handle, hnone]
    rw [hs']
    exact ⟨rfl, hs, .inl ⟨rfl, rfl, b, hb, hdue⟩⟩
  · obtain ⟨⟨t, w, hstage, hw⟩, -⟩ := hs.exists_work hb
    obtain ⟨hnow, hstages, hstopping, ⟨answer, hlog⟩, hsource⟩ :=
      handle_executing hs.stopping hsome hstage
    have hput : s'.crew.works = (s.crew.put b.call .stopped).works := by
      rw [Crew.works, hstages]
      rfl
    refine ⟨hnow, hs.of_set hstopping hstages,
      .inr ⟨t, w, answer, hw.trans hdue, ?_, hlog, hsource⟩⟩
    rw [hput]
    exact Crew.works_put_of_executing hstage rfl

/-! ## The sweep -/

/-- From one shift to another, the tasks in hand that were due by a moment were reported, each once
and when it was due or at once if it was overdue. The others are in hand still, and nothing else was
noted. -/
structure Sweeps (limit : Time) (s r : Shift σ) : Prop where
  works_perm : r.crew.works.Perm (s.crew.works.filter (limit < ·.2.due))
  log_eq : ∃ later, r.crew.log = later ++ s.crew.log ∧
    (later.map fun n => (n.1, n.2.report?)).Perm
      ((s.crew.works.filter (·.2.due ≤ limit)).map fun p =>
        (max s.now p.2.due, some p.1.compute))
  now_le : s.now ≤ r.now
  due_le : ∀ p ∈ s.crew.works, p.2.due ≤ limit → p.2.due ≤ r.now

/-- Where nothing in hand is due by the moment, nothing has to happen. -/
theorem Sweeps.refl (h : ∀ p ∈ s.crew.works, limit < p.2.due) : Sweeps limit s s where
  works_perm := .of_eq (List.filter_eq_self.mpr (by simpa using h)).symm
  log_eq := by
    refine ⟨[], rfl, .of_eq ?_⟩
    rw [List.filter_eq_nil_iff.mpr fun p hp => by simpa using h p hp]
    rfl
  now_le := Nat.le_refl _
  due_le := fun p hp hdue => absurd (h p hp) (Nat.not_lt.mpr hdue)

/-- A sweep up to a moment at which nothing is in hand any more has reported all. -/
theorem Sweeps.works_eq_nil (h : Sweeps limit s r) (hdues : ∀ p ∈ s.crew.works, p.2.due ≤ limit) :
    r.crew.works = [] := by
  refine List.perm_nil.mp (h.works_perm.trans (.of_eq (List.filter_eq_nil_iff.mpr ?_)))
  simpa using hdues

/-- Time that passes up to the first of the tasks in hand makes none of them overdue. -/
theorem Sweeps.wait {due : Time} (hcrew : s'.crew = s.crew) (hnow : s'.now = max s.now due)
    (hleast : ∀ p ∈ s.crew.works, due ≤ p.2.due) (h : Sweeps limit s' r) : Sweeps limit s r where
  works_perm := hcrew ▸ h.works_perm
  log_eq := by
    obtain ⟨later, hlater, hperm⟩ := h.log_eq
    rw [hcrew] at hlater hperm
    refine ⟨later, hlater, hperm.trans (.of_eq (List.map_congr_left fun p hp => ?_))⟩
    rw [hnow, Nat.max_assoc, Nat.max_eq_right (hleast p (List.mem_filter.mp hp).1)]
  now_le := Nat.le_trans (hnow ▸ Nat.le_max_left _ _) h.now_le
  due_le := hcrew ▸ h.due_le

/-- A task that is reported when it is due is swept with the others. -/
theorem Sweeps.cons {t : Task} {w : Wait} {answer : Receipt}
    (hworks : s.crew.works.Perm ((t, w) :: s'.crew.works)) (hdue : w.due ≤ limit)
    (hlog : s'.crew.log = (max s.now w.due, .reported t.compute answer) :: s.crew.log)
    (hnow : s'.now = max s.now w.due) (hleast : ∀ p ∈ s.crew.works, w.due ≤ p.2.due)
    (h : Sweeps limit s' r) : Sweeps limit s r := by
  have hlate : ∀ p ∈ s'.crew.works, max s'.now p.2.due = max s.now p.2.due := fun p hp => by
    have hle := hleast p (hworks.mem_iff.mpr (List.mem_cons_of_mem _ hp))
    rw [hnow, Nat.max_assoc, Nat.max_eq_right hle]
  refine ⟨?_, ?_, ?_, ?_⟩
  · have hrest := hworks.filter (limit < ·.2.due)
    rw [List.filter_cons_of_neg (by simpa using hdue)] at hrest
    exact h.works_perm.trans hrest.symm
  · obtain ⟨later, hlater, hperm⟩ := h.log_eq
    refine ⟨later ++ [(max s.now w.due, .reported t.compute answer)], by simp [hlater, hlog], ?_⟩
    have hrest := hworks.filter (·.2.due ≤ limit)
    rw [List.filter_cons_of_pos (by simpa using hdue)] at hrest
    rw [List.map_append]
    refine List.perm_append_comm.trans (.trans ?_ (hrest.map _).symm)
    refine (hperm.trans (.of_eq (List.map_congr_left fun p hp => ?_))).cons _
    simp only [hlate p (List.mem_filter.mp hp).1]
  · exact Nat.le_trans (hnow ▸ Nat.le_max_left _ _) h.now_le
  · intro p hp hpdue
    rcases List.mem_cons.mp (hworks.mem_iff.mp hp) with rfl | hrest
    · exact Nat.le_trans (hnow ▸ Nat.le_max_right _ _) h.now_le
    · exact h.due_le p hrest hpdue

variable {P : σ → Prop} {rings : σ → Nat} {within : Shift σ → Time → Bool}

/-- Handling alarms up to a moment sweeps the tasks in hand, if the budget allows for them and for
the alarms of the source. -/
theorem sweeps_handleAll (hsrc : src.Counts P rings)
    (hwithin : ∀ s due, s.crew.isDone = false → (within s due = true ↔ due ≤ limit)) {budget : Nat}
    (hs : s.crew.IsEnding) (hx : P s.source)
    (hbudget : s.crew.works.length + rings s.source ≤ budget) :
    (s.handleAll src setup within budget).crew.IsEnding ∧
      Sweeps limit s (s.handleAll src setup within budget) := by
  induction budget generalizing s with
  | zero =>
    have hnone : s.crew.works = [] := List.length_eq_zero_iff.mp (by omega)
    exact ⟨hs, .refl (by simp [hnone])⟩
  | succ budget ih =>
    rw [handleAll]
    split
    · next hnext =>
      have hnone := Crew.works_eq_nil_of_alarm? (alarm?_eq_none_of_next? hnext).2
      exact ⟨hs, .refl (by simp [hnone])⟩
    · next a hnext =>
      obtain ⟨hleast, hnow, hs', hcases⟩ := handle_cases setup hs hnext
      split
      · next hin =>
        rcases hcases with ⟨hcrew, hsource, b, hb, hdue⟩ |
          ⟨t, w, answer, hdue, hworks, hlog, hsource⟩
        · have hring := hsrc.ring_lt (max s.now a.due) s.source b hx hb
            (hdue ▸ Nat.le_max_right _ _)
          obtain ⟨hended, hrest⟩ := ih hs' (hsource ▸ hsrc.ring _ _ hx)
            (by rw [hcrew, hsource]; omega)
          exact ⟨hended, hrest.wait hcrew hnow hleast⟩
        · have hsend := hsrc.send_le (max s.now a.due) t.compute s.source hx
          have hlength := hworks.length_eq
          rw [List.length_cons] at hlength
          obtain ⟨hended, hrest⟩ := ih hs' (hsource ▸ hsrc.send _ _ _ hx) (by rw [hsource]; omega)
          have hbusy := hs.isDone_eq_false (hworks.mem_iff.mpr List.mem_cons_self)
          have hlimit : w.due ≤ limit := hdue ▸ (hwithin s a.due hbusy).mp hin
          rw [← hdue] at hlog hnow hleast
          exact ⟨hended, hrest.cons hworks hlimit hlog hnow hleast⟩
      · next hout =>
        refine ⟨hs, .refl fun p hp => ?_⟩
        have hlate : ¬ a.due ≤ limit := fun hle =>
          hout ((hwithin s a.due (hs.isDone_eq_false hp)).mpr hle)
        exact Nat.lt_of_lt_of_le (Nat.lt_of_not_le hlate) (hleast p hp)

/-- A worker that stops handling alarms when all its loops have ended does not let time pass
beyond the last task in hand. -/
theorem now_handleAll_le (hdone : ∀ s due, s.crew.isDone = true → within s due = true → due ≤ s.now)
    {bound : Time} (budget : Nat) (hs : s.crew.IsEnding) (hnow : s.now ≤ bound)
    (hbound : ∀ p ∈ s.crew.works, p.2.due ≤ bound) :
    (s.handleAll src setup within budget).now ≤ bound := by
  refine (handleAll_induction (fun s a (h : s.crew.IsEnding ∧ s.now ≤ bound ∧
    ∀ p ∈ s.crew.works, p.2.due ≤ bound) hnext hin => ?_) ⟨hs, hnow, hbound⟩ budget).2.1
  obtain ⟨hs, hnow, hbound⟩ := h
  obtain ⟨hleast, hnow', hs', hcases⟩ := handle_cases setup hs hnext
  have hdue : a.due ≤ bound := by
    cases hworks : s.crew.works with
    | nil => exact Nat.le_trans (hdone s a.due (hs.isDone_iff.mpr hworks) hin) hnow
    | cons p works =>
      have hp : p ∈ s.crew.works := hworks ▸ List.mem_cons_self
      exact Nat.le_trans (hleast p hp) (hbound p hp)
  refine ⟨hs', hnow' ▸ Nat.max_le.mpr ⟨hnow, hdue⟩, fun p hp => hbound p ?_⟩
  rcases hcases with ⟨hcrew, -, -⟩ | ⟨t, w, answer, -, hworks, -, -⟩
  · exact hcrew ▸ hp
  · exact hworks.mem_iff.mpr (List.mem_cons_of_mem _ hp)

/-- Sweeping further is one sweep if time did not run past the tasks that were left. -/
theorem Sweeps.trans {limit' : Time} (h : Sweeps limit s s') (h' : Sweeps limit' s' r)
    (hle : limit ≤ limit') (hnow : s'.now ≤ max s.now limit) : Sweeps limit' s r := by
  have hlate : ∀ p ∈ s.crew.works.filter (limit < ·.2.due),
      max s'.now p.2.due = max s.now p.2.due := fun p hp => by
      have hdue : limit < p.2.due := of_decide_eq_true (List.mem_filter.mp hp).2
      have hle : s'.now ≤ max s.now p.2.due :=
        Nat.le_trans hnow (Nat.max_le.mpr ⟨Nat.le_max_left _ _,
          Nat.le_trans (Nat.le_of_lt hdue) (Nat.le_max_right _ _)⟩)
      exact Nat.le_antisymm (Nat.max_le.mpr ⟨hle, Nat.le_max_right _ _⟩)
        (Nat.max_le.mpr ⟨Nat.le_trans h.now_le (Nat.le_max_left _ _), Nat.le_max_right _ _⟩)
  refine ⟨?_, ?_, Nat.le_trans h.now_le h'.now_le, fun p hp hdue => ?_⟩
  · refine h'.works_perm.trans ((h.works_perm.filter _).trans (.of_eq ?_))
    rw [List.filter_filter]
    refine List.filter_congr fun p _ => ?_
    simp only [← Bool.decide_and, decide_eq_decide]
    exact and_iff_left_of_imp (Nat.lt_of_le_of_lt hle)
  · obtain ⟨later, hlater, hperm⟩ := h.log_eq
    obtain ⟨further, hfurther, hperm'⟩ := h'.log_eq
    refine ⟨further ++ later, by rw [hfurther, hlater, List.append_assoc], ?_⟩
    have hrest : ((s'.crew.works.filter (·.2.due ≤ limit')).map fun p =>
        (max s'.now p.2.due, some p.1.compute)).Perm
        (((s.crew.works.filter (limit < ·.2.due)).filter (·.2.due ≤ limit')).map fun p =>
          (max s.now p.2.due, some p.1.compute)) := by
      refine ((h.works_perm.filter _).map _).trans (.of_eq (List.map_congr_left fun p hp => ?_))
      rw [hlate p (List.mem_filter.mp hp).1]
    rw [List.map_append]
    refine ((hperm'.trans hrest).append hperm).trans ?_
    rw [← List.map_append]
    refine .map _ (.trans (.append (.of_eq (List.filter_comm ..)) (.of_eq ?_))
      (List.filter_append_perm (limit < ·.2.due) (s.crew.works.filter (·.2.due ≤ limit'))))
    rw [List.filter_filter]
    refine List.filter_congr fun p _ => ?_
    simp only [← decide_not, ← Bool.decide_and, decide_eq_decide, Nat.not_lt]
    exact (and_iff_left_of_imp fun hdue => Nat.le_trans hdue hle).symm
  · by_cases hearly : p.2.due ≤ limit
    · exact Nat.le_trans (h.due_le p hp hearly) h'.now_le
    · have hleft : p ∈ s'.crew.works := h.works_perm.mem_iff.mpr
        (List.mem_filter.mpr ⟨hp, decide_eq_true (Nat.lt_of_not_le hearly)⟩)
      exact h'.due_le p hleft hdue

/-- The request to stop is no part of what is swept. -/
theorem Sweeps.of_halt (h : Sweeps limit (s.halt src setup) r) : Sweeps limit s r := by
  obtain ⟨hnow, hlog, hworks⟩ := same_halt src setup s
  exact ⟨hworks ▸ h.works_perm, by have := h.log_eq; rwa [hnow, hlog, hworks] at this,
    hnow ▸ h.now_le, hworks ▸ h.due_le⟩

/-- A worker that is ending and waits sweeps its tasks up to the end of the grace period, and
returns when the last is reported or the grace period ends. -/
theorem sweeps_await (hsrc : src.Counts P rings) (hs : s.crew.IsEnding) (hx : P s.source)
    (hloops : s.crew.works.length ≤ setup.loops) (grace : Nat) :
    let after := s.await src setup (s.now + grace)
    after.crew.IsEnding ∧ Sweeps (s.now + grace) s after ∧
      after.now = s.now + min grace s.remaining := by
  intro after
  let limit := s.now + grace
  let within : Shift σ → Time → Bool :=
    fun s due => decide (due ≤ if s.crew.isDone then s.now else limit)
  let r := handleAll src setup within (setup.loops + src.bound s.source) s
  have hafter : after = { r with now := if r.crew.isDone then r.now else limit } := rfl
  obtain ⟨hended, hsweeps⟩ : r.crew.IsEnding ∧ Sweeps limit s r :=
    sweeps_handleAll hsrc (fun s due hbusy => by simp [within, hbusy]) hs hx
      (Nat.add_le_add hloops (hsrc.le_bound _ hx))
  by_cases hshort : s.remaining ≤ grace
  · have hdues : ∀ p ∈ s.crew.works, p.2.due ≤ limit := remaining_le_iff.mp hshort
    have hnone : r.crew.works = [] := hsweeps.works_eq_nil hdues
    have hr : after = r := by rw [hafter, if_pos (hended.isDone_iff.mpr hnone)]
    have hlast : r.now ≤ s.now + s.remaining :=
      now_handleAll_le (fun s due hdone hin => by simpa [within, hdone] using hin) _ hs
        (Nat.le_add_right _ _) (remaining_le_iff.mp (Nat.le_refl _))
    have hlong : s.remaining ≤ r.now - s.now := remaining_le_iff.mpr fun p hp => by
      rw [Nat.add_sub_cancel' hsweeps.now_le]
      exact hsweeps.due_le p hp (hdues p hp)
    rw [hr, Nat.min_eq_right hshort]
    exact ⟨hended, hsweeps, Nat.le_antisymm hlast (Nat.add_le_of_le_sub' hsweeps.now_le hlong)⟩
  · have hlong : ¬ ∀ p ∈ s.crew.works, p.2.due ≤ limit := fun hdues =>
      hshort (remaining_le_iff.mpr hdues)
    obtain ⟨p, hp⟩ := not_forall.mp hlong
    obtain ⟨hmem, hdue⟩ := Classical.not_imp.mp hp
    have hleft : p ∈ r.crew.works := hsweeps.works_perm.mem_iff.mpr
      (List.mem_filter.mpr ⟨hmem, decide_eq_true (Nat.lt_of_not_le hdue)⟩)
    have hr : after = { r with now := limit } := by
      rw [hafter, if_neg (by simp [hended.isDone_eq_false hleft])]
    rw [hr, Nat.min_eq_left (Nat.le_of_not_le hshort)]
    exact ⟨hended, ⟨hsweeps.works_perm, hsweeps.log_eq, Nat.le_add_right _ _, fun _ _ h => h⟩, rfl⟩

/-- A worker that is shut down sweeps its tasks up to the end of the grace period, and returns when
the last is reported or the grace period ends. -/
theorem sweeps_shutDown (hsrc : src.Counts P rings) {before : Shift σ} (hx : P before.source)
    (hanswered : ∀ stage ∈ before.crew.stages, stage.isAnswered = true)
    (hloops : before.crew.stages.length ≤ setup.loops) :
    let after := Worker.shutDown src setup before
    after.crew.IsEnding ∧ Sweeps (before.now + setup.grace) before after ∧
      after.now = before.now + min setup.grace before.remaining := by
  intro after
  obtain ⟨hnow, -, hworks⟩ := same_halt src setup before
  have hsource : P (before.halt src setup).source := by rwa [halt_eq]
  have hlength : (before.halt src setup).crew.works.length ≤ setup.loops := by
    rw [hworks]
    exact Nat.le_trans (List.length_filterMap_le ..) hloops
  have hwaits := sweeps_await hsrc (isEnding_halt hanswered) hsource hlength setup.grace
  simp only [remaining, hnow, hworks] at hwaits
  exact hwaits.imp_right (And.imp_left Sweeps.of_halt)

/-- Whatever turns a worker takes, its source keeps to the states with the property. -/
theorem Reaches.source (h : s.Reaches src setup s') (hsrc : src.Counts P rings)
    (hx : P s.source) : P s'.source :=
  h.induction (fun _ _ x _ _ (hx : P x) htakes => htakes.source hsrc hx) hx

/-- A source that never crashes on a report loses none. -/
theorem Reaches.lost_eq_zero {now : Time} {x : σ}
    (h : Reaches src setup ⟨now, Crew.start setup, x⟩ s) (hsrc : src.Counts P rings) (hx : P x)
    (hsend : ∀ now r y, P y → (src.send now r y).1 ≠ .crashed) : s.crew.lost = 0 := by
  refine (h.induction (fun now c y c' y' (hcy : c.lost = 0 ∧ P y) htakes => ?_) ⟨rfl, hx⟩).1
  obtain ⟨hlost, hy⟩ := hcy
  exact ⟨(Crew.lost_takes (fun r => hsend now r y hy) htakes).trans hlost, htakes.source hsrc hy⟩

/-- A worker that was shut down goes on with the tasks that it left, each up to its moment. -/
theorem sweeps_after_shutDown (hsrc : src.Counts P rings) {before : Shift σ} (hx : P before.source)
    (hanswered : ∀ stage ∈ before.crew.stages, stage.isAnswered = true)
    (hloops : before.crew.stages.length ≤ setup.loops) (hlimit : before.now + setup.grace ≤ limit) :
    let after := Worker.shutDown src setup before
    Sweeps limit before (after.handleAll src setup (fun _ due => decide (due ≤ limit))
      (setup.loops + src.bound after.source)) := by
  intro after
  obtain ⟨hended, hsweeps, hnow⟩ := sweeps_shutDown hsrc hx hanswered hloops
  have hx' : P after.source := (Reaches.shutDown before).source hsrc hx
  have hlength : after.crew.works.length ≤ setup.loops := by
    rw [hsweeps.works_perm.length_eq]
    exact Nat.le_trans (List.length_filter_le ..)
      (Nat.le_trans (List.length_filterMap_le ..) hloops)
  have hfurther : _ ∧ Sweeps limit after (after.handleAll src setup
      (fun _ due => decide (due ≤ limit)) (setup.loops + src.bound after.source)) :=
    sweeps_handleAll hsrc (fun _ _ _ => decide_eq_true_iff) hended hx'
      (Nat.add_le_add hlength (hsrc.le_bound _ hx'))
  refine hsweeps.trans hfurther.2 hlimit ?_
  rw [hnow]
  exact Nat.le_trans (Nat.add_le_add_left (Nat.min_le_left _ _) _) (Nat.le_max_right _ _)

/-- A worker is shut down gracefully, however it is set up, whatever its source answers and
wherever its loops stand at the request. The request sets the flag, and then the loops that pause
are woken. From the flag on, and by whatever turns the worker goes on, nothing is noted any more but
reports, and these with what is still in hand are those of the tasks that were in hand at the
request; so no task is fetched and none is reported twice. Whatever turns come between the flag and
the waking, no loop misses it: none pauses from then on, and one that was idle, polling or pausing,
has ended when it has had a turn. Where nothing comes between, it polls until its next turn and ends
by that. In virtual time it takes that turn at once: the idle loops end before any time passes, and
nothing else changes. A task is reported when it is due. The
worker returns when the last has been reported or when the grace period ends: if every task in hand
takes less than that, it returns after the longest, all loops have ended, every task that was ever
fetched has been reported, and none is counted as active unless the source crashed on its report.
Tasks that take longer are reported when they are due, after the worker has returned. -/
theorem shutdown_is_graceful (hsrc : src.Counts P rings) (setup : Setup) {x : σ} (hx : P x) :
    (∀ now stopAt,
      let before := Worker.runUntil src setup now stopAt x
      let after := Worker.shutDown src setup before
      Reaches src setup ⟨now, Crew.start setup, x⟩ before ∧ before.now = max now stopAt ∧
        Worker.run src setup now stopAt x =
          (⟨before.crew.active, after.crew.active, after.now, after.crew.log.reverse⟩, after)) ∧
    ∀ now before, Reaches src setup ⟨now, Crew.start setup, x⟩ before →
      let flagged := (before.crew.move setup before.now .request).2
      let asked := (flagged.move setup before.now .notify).2
      let ended := before.halt src setup
      let after := Worker.shutDown src setup before
      (∀ turns, before.crew.IsWinding (flagged.takeAll src setup before.source turns).1) ∧
      (∀ turns, .notify ∈ turns.map (·.2) → ∀ w,
        .pausing w ∉ (flagged.takeAll src setup before.source turns).1.stages) ∧
      (∀ (i : Nat) stage, before.crew.stages[i]? = some stage → stage.isIdle = true →
        (∀ turns later, .notify ∈ turns.map (·.2) → .loop i ∈ later.map (·.2) →
          (flagged.takeAll src setup before.source (turns ++ later)).1.stages[i]? =
            some .stopped) ∧
        ∀ turns, (asked.takeAll src setup before.source turns).1.stages[i]? =
          some (if .loop i ∈ turns.map (·.2) then .stopped else .polling)) ∧
      (∃ is : List Nat, asked.takeAll src setup before.source
        (is.map fun i => (before.now, .loop i)) = (ended.crew, ended.source)) ∧
      ended = { before with crew := { before.crew with
        stopping := true
        stages := before.crew.stages.map fun stage =>
          if stage.isIdle then .stopped else stage } } ∧
      ended.crew.IsEnding ∧ after = ended.await src setup (before.now + setup.grace) ∧
      Sweeps (before.now + setup.grace) before after ∧
      after.now = before.now + min setup.grace before.remaining ∧
      ((∀ p ∈ before.crew.works, p.2.due - before.now < setup.grace) →
        after.now = before.now + before.remaining ∧ after.crew.isDone = true ∧
        (after.crew.fetches.map Task.compute).Perm after.crew.reports ∧
        after.crew.active = after.crew.lost ∧
        ((∀ now r y, P y → (src.send now r y).1 ≠ .crashed) → after.crew.active = 0)) ∧
      ∀ limit, before.now + setup.grace ≤ limit →
        Sweeps limit before (after.handleAll src setup (fun _ due => decide (due ≤ limit))
          (setup.loops + src.bound after.source)) := by
  refine ⟨fun now stopAt => ⟨.runUntil now stopAt x, now_runUntil now stopAt x, rfl⟩,
    fun now before hreaches => ?_⟩
  intro flagged asked ended after
  have hx' : P before.source := hreaches.source hsrc hx
  obtain ⟨hbalanced, hlength, -⟩ := hreaches.accounts
  obtain ⟨hended, hsweeps, hnow⟩ :=
    sweeps_shutDown hsrc hx' hbalanced.answered (Nat.le_of_eq hlength)
  have hafter := (hreaches.trans (.shutDown before)).accounts
  obtain ⟨-, hturns⟩ : TurnsTo src setup { before with crew := asked } ended := .rouseAll _
  refine ⟨fun turns => ?_, fun turns hnotify w =>
      Crew.pausing_notMem_takeAll_of_notify rfl w hnotify, fun i stage hstage hidle => ⟨?_, ?_⟩,
    hturns, halt_eq before, isEnding_halt hbalanced.answered, rfl, hsweeps, hnow,
    fun hshort => ?_, fun limit hlimit =>
      sweeps_after_shutDown hsrc hx' hbalanced.answered (Nat.le_of_eq hlength) hlimit⟩
  · exact Crew.takeAll_induction (fun _ c _ c' _ (hc : before.crew.IsWinding c) htakes =>
      hc.takes htakes) (Crew.isWinding_request before.crew) turns
  · exact fun turns later hnotify hown =>
      Crew.getElem?_takeAll_of_notify (c := flagged) rfl hstage hidle hnotify hown
  · exact fun turns => Crew.getElem?_takeAll_stop hstage hidle turns
  · have hdues : ∀ p ∈ before.crew.works, p.2.due ≤ before.now + setup.grace := fun p hp =>
      Nat.sub_le_iff_le_add'.mp (Nat.le_of_lt (hshort p hp))
    have hbrief : before.remaining ≤ setup.grace := remaining_le_iff.mpr hdues
    have hnone : after.crew.works = [] := hsweeps.works_eq_nil hdues
    obtain ⟨hbalanced', -, hactive⟩ := hafter
    have hreported := hbalanced'.fetches_perm
    rw [hnone, List.length_nil, Nat.zero_add] at hactive
    rw [hnone, List.map_nil, List.append_nil] at hreported
    exact ⟨by rw [hnow, Nat.min_eq_right hbrief], hended.isDone_iff.mpr hnone, hreported, hactive,
      fun hsend => hactive.trans ((hreaches.trans (.shutDown before)).lost_eq_zero hsrc hx hsend)⟩

/-- A worker beside its broker is asked to stop with two tasks in hand and one loop in the middle of
a pause, which ends then. The worker returns when the longer task is reported. One whose grace
period is too short returns before its task is reported, and reports it later. -/
theorem shutdown_is_graceful_beside_broker :
    let site : Site := (({ broker := { costs := { addition := 300, multiplication := 1000 } } } :
      Site).submit "1+2" 1).submit "3*4" 1
    let setup : Setup := { concurrency := 3, idle := 60, grace := 5000 }
    let before := Worker.runUntil Site.source setup 0 100 site
    let ended := before.halt Site.source setup
    let after := Worker.shutDown Site.source setup before
    let sum : Task := ⟨⟨1, .add, 1, 2, 300⟩, 1⟩
    let short : Setup := { grace := 50 }
    let rushed := Worker.runUntil Script.source short 0 100 { fetches := [.task sum] }
    let left := Worker.shutDown Script.source short rushed
    let later := left.handleAll Script.source short (fun _ due => decide (due ≤ 400))
      (short.loops + Script.source.bound left.source)
    (before.crew.works.map (·.2.due) = [300, 1000] ∧
      before.crew.stages[2]? = some (.pausing ⟨60, 120, 3⟩) ∧
      ended.now = 100 ∧ ended.crew.stages[2]? = some .stopped ∧
      after.now = 1000 ∧ after.crew.active = 0 ∧
      (after.crew.fetches.map Task.compute).Perm after.crew.reports) ∧
      rushed.crew.works.map (·.2.due) = [300] ∧ left.now = 150 ∧ later.crew.works = [] := by
  intro site setup before ended after sum short rushed left later
  have hsubmit (s : Site) (text : String) (hs : s.broker.IsConsistent) :
      (s.submit text 1).broker.IsConsistent := by
    have hnext := Moment.isConsistent_step (m := s.moment 0) hs (.submit text 1)
    rwa [← Site.moment_submit] at hnext
  have hsite : site.broker.IsConsistent := hsubmit _ _ (hsubmit _ _ (Broker.isConsistent_new _))
  have hanswers (now : Time) (r : Report) (s : Site) : (Site.source.send now r s).1 ≠ .crashed := by
    change (s.send now r).1 ≠ .crashed
    rw [Site.send_eq]
    split <;> simp
  have hscript : .crashed ∉ ({ fetches := [.task sum] } : Script).receipts := List.not_mem_nil
  obtain ⟨hruns, hshut⟩ := shutdown_is_graceful Site.counts_source setup hsite
  obtain ⟨-, -, -, -, hhalts, -, -, -, -, hgraceful, -⟩ := hshut 0 before (hruns 0 100).1
  have hended : ended = _ := hhalts
  obtain ⟨hreturned, -, hreported, -, hactive⟩ := hgraceful (by decide +kernel)
  obtain ⟨hruns', hshut'⟩ := shutdown_is_graceful Script.counts_source short hscript
  obtain ⟨-, -, -, -, -, -, -, -, hreturned', -, hfurther⟩ := hshut' 0 rushed (hruns' 0 100).1
  have hswept : Sweeps 400 rushed later := hfurther 400 (by decide +kernel)
  have hpausing : before.crew.stages[2]? = some (.pausing ⟨60, 120, 3⟩) := by decide +kernel
  have hstopped : ended.crew.stages[2]? = some .stopped := by
    rw [hended, List.getElem?_map, hpausing]
    rfl
  have hlast : before.now + before.remaining = 1000 := by decide +kernel
  have hlimit : rushed.now + min short.grace rushed.remaining = 150 := by decide +kernel
  exact ⟨⟨by decide +kernel, hpausing, by rw [hended]; decide +kernel, hstopped,
    hreturned.trans hlast, hactive fun now r s _ => hanswers now r s, hreported⟩,
    by decide +kernel, hreturned'.trans hlimit, hswept.works_eq_nil (by decide +kernel)⟩

end Shift

end Piecework
