import Piecework.Timeline.Work

/-!
# The passage of time beside a worker

A worker that runs in virtual time handles whatever is set for the earliest moment and lets
each loop go on until it waits again. That is one of the rows of things that may happen
beside it, so what holds along all of them holds for the worker that runs.
-/

namespace Piecework

/-- A loop whose wait is over can go on. -/
theorem Stage.rests_eq_false {stage : Stage} {w : Wait} (hw : stage.wait? = some w) {now : Time}
    (h : w.due ≤ now) : stage.rests now = false := by
  cases stage with
  | pausing w' | executing _ w' =>
    obtain rfl := Option.some.inj hw
    exact decide_eq_false (Nat.not_lt_of_le h)
  | polling | fetching | reporting _ | stopped => contradiction

namespace Crew

variable {c : Crew}

/-- The alarms of a row of loops are those of the waits in it. -/
theorem alarms_eq (k : Nat) (stages : List Stage) :
    alarms k stages = (stages.zipIdx k).filterMap fun p =>
      p.1.wait?.map fun w => ⟨w.due, w.turn, (p.2, w)⟩ := by
  induction stages generalizing k with
  | nil => rfl
  | cons s rest ih =>
    rw [alarms, List.zipIdx_cons, List.filterMap_cons, ih]
    cases s.wait? <;> rfl

/-- An alarm is that of one loop's wait. -/
theorem mem_alarms_iff {stages : List Stage} {a : Alarm (Nat × Wait)} :
    a ∈ alarms 0 stages ↔ ∃ i stage w, stages[i]? = some stage ∧ stage.wait? = some w ∧
      a = ⟨w.due, w.turn, (i, w)⟩ := by
  simp only [alarms_eq, List.mem_filterMap, List.mem_zipIdx_iff_getElem?, Option.map_eq_some_iff,
    Prod.exists]
  constructor
  · rintro ⟨stage, i, hstage, w, hw, rfl⟩
    exact ⟨i, stage, w, hstage, hw, rfl⟩
  · rintro ⟨i, stage, w, hstage, hw, rfl⟩
    exact ⟨stage, i, hstage, w, hw, rfl⟩

/-- A loop that rings waits for that moment, and no other waits for an earlier one. -/
theorem alarm?_spec {a : Alarm Nat} (h : c.alarm? = some a) :
    (∃ stage w, c.stages[a.call]? = some stage ∧ stage.wait? = some w ∧ w.due = a.due) ∧
      ∀ stage ∈ c.stages, ∀ w, stage.wait? = some w → a.due ≤ w.due := by
  obtain ⟨b, hfirst, rfl⟩ := Option.map_eq_some_iff.mp h
  obtain ⟨hmem, hleast⟩ := Alarm.first?_spec hfirst
  obtain ⟨i, stage, w, hstage, hw, rfl⟩ := mem_alarms_iff.mp hmem
  refine ⟨⟨stage, w, hstage, hw, rfl⟩, fun stage' hstage' w' hw' => ?_⟩
  obtain ⟨j, hj⟩ := List.mem_iff_getElem?.mp hstage'
  exact hleast _ (mem_alarms_iff.mpr ⟨j, stage', w', hj, hw', rfl⟩)

/-- Where no loop rings, none waits. -/
theorem wait?_eq_none_of_alarm? (h : c.alarm? = none) {stage : Stage} (hstage : stage ∈ c.stages) :
    stage.wait? = none := by
  rw [alarm?, Option.map_eq_none_iff, Alarm.first?_eq_none_iff] at h
  refine Option.eq_none_iff_forall_ne_some.mpr fun w hw => ?_
  obtain ⟨i, hi⟩ := List.mem_iff_getElem?.mp hstage
  have hmem := mem_alarms_iff.mpr ⟨i, stage, w, hi, hw, rfl⟩
  rw [h] at hmem
  exact List.not_mem_nil hmem

end Crew

namespace Shift

section Passing

variable {σ : Type} {src : Source σ} {setup : Setup} {s : Shift σ} {Holds : Shift σ → Prop}

/-- What a loop's steps keep holds when it has gone on. -/
theorem goOn_induction {i : Nat}
    (hstep : ∀ s, Holds s → (s.crew.stages[i]?).all (·.rests s.now) = false →
      Holds (s.step src setup i))
    (hs : Holds s) (budget : Nat) : Holds (s.goOn src setup i budget) := by
  induction budget generalizing s with
  | zero => exact hs
  | succ budget ih =>
    rw [goOn]
    split
    · exact hs
    · next hready => exact ih (hstep s hs (eq_false_of_ne_true hready))

/-- What loops keep as they go on holds when those that poll have gone on. -/
theorem rouseAll_induction
    (hgoOn : ∀ i budget s, Holds s → s.crew.stages[i]? = some .polling →
      Holds (s.goOn src setup i budget))
    (hs : Holds s) : Holds (s.rouseAll src setup) := by
  rw [rouseAll]
  induction List.range s.crew.stages.length generalizing s with
  | nil => exact hs
  | cons i is ih =>
    refine ih ?_
    rw [rouse]
    split
    · next hpolling => exact hgoOn i _ s hs hpolling
    · exact hs

/-- What every alarm that is handled keeps holds after a row of them. -/
theorem handleAll_induction {within : Shift σ → Time → Bool}
    (hhandle : ∀ s a, Holds s → s.next? src = some a → within s a.due = true →
      Holds (s.handle src setup a))
    (hs : Holds s) (budget : Nat) : Holds (s.handleAll src setup within budget) := by
  induction budget generalizing s with
  | zero => exact hs
  | succ budget ih =>
    rw [handleAll]
    split
    · exact hs
    · next a hnext =>
      split
      · next hin => exact ih (hhandle s a hs hnext hin)
      · exact hs

/-- A loop that goes on takes no time. -/
theorem now_goOn (i budget : Nat) (s : Shift σ) : (s.goOn src setup i budget).now = s.now :=
  goOn_induction (fun s' (h : s'.now = s.now) _ => h) rfl budget

/-- Loops that go on because they poll take no time. -/
theorem now_rouseAll (s : Shift σ) : (s.rouseAll src setup).now = s.now :=
  rouseAll_induction (fun i budget s' (h : s'.now = s.now) _ => (now_goOn i budget s').trans h) rfl

/-- An alarm is handled when it is due, or at once. -/
theorem now_handle (a : Alarm (Option Nat)) (s : Shift σ) :
    (s.handle src setup a).now = max s.now a.due := by
  rw [handle]
  split
  · rfl
  · exact now_goOn ..

/-- What is due by now is handled now. -/
theorem now_catchUp (s : Shift σ) : (s.catchUp src setup).now = s.now := by
  refine handleAll_induction (fun s' a (h : s'.now = s.now) _ hin => ?_) rfl _
  rw [now_handle, Nat.max_eq_left (of_decide_eq_true hin), h]

/-- From one moment at which something is due to the next, a worker comes to a last one. What is
left there is due at the limit or later, unless the last moment before the limit has come. -/
theorem exists_advance_eq {limit : Time}
    (hnext : ∀ s a, Holds s → (s.catchUp src setup).next? src = some a →
      Holds { s.catchUp src setup with now := max (s.now + 1) a.due })
    {moments : Nat} (hs : Holds s) (hnow : s.now < limit) (hmoments : limit ≤ s.now + moments) :
    ∃ r, Holds r ∧ r.now < limit ∧ s.advance src setup limit moments = r.catchUp src setup ∧
      ∀ a, (r.catchUp src setup).next? src = some a → limit ≤ max (r.now + 1) a.due := by
  induction moments generalizing s with
  | zero => exact absurd hnow (Nat.not_lt_of_le hmoments)
  | succ moments ih =>
    simp only [advance, now_catchUp]
    cases hcall : (s.catchUp src setup).next? src with
    | none => exact ⟨s, hs, hnow, rfl, by simp [hcall]⟩
    | some a =>
      dsimp only
      split
      · next hlater =>
        refine ih (hnext s a hs hcall) hlater ?_
        calc limit ≤ s.now + (moments + 1) := hmoments
          _ = s.now + 1 + moments := Nat.add_right_comm s.now moments 1
          _ ≤ max (s.now + 1) a.due + moments := Nat.add_le_add_right (Nat.le_max_left _ _) _
      · next hlast =>
        refine ⟨s, hs, hnow, rfl, fun b hb => ?_⟩
        obtain rfl := Option.some.inj (hcall.symm.trans hb)
        exact Nat.le_of_not_lt hlast

/-- A worker that runs until a later moment stands there as its last moment before has left it. What
is left is due at that moment or later, unless the one just before it has come. -/
theorem exists_runUntil_eq {now stopAt : Time} {x : σ}
    (hnext : ∀ s a, Holds s → (s.catchUp src setup).next? src = some a →
      Holds { s.catchUp src setup with now := max (s.now + 1) a.due })
    (hstart : Holds (rouseAll src setup ⟨now, Crew.start setup, x⟩)) (hlater : now < stopAt) :
    ∃ r, Holds r ∧ r.now < stopAt ∧ Worker.runUntil src setup now stopAt x =
        { r.catchUp src setup with now := stopAt } ∧
      ∀ a, (r.catchUp src setup).next? src = some a → stopAt ≤ max (r.now + 1) a.due := by
  have hnow : (rouseAll src setup ⟨now, Crew.start setup, x⟩).now = now := now_rouseAll _
  have hmoments :
      stopAt ≤ (rouseAll src setup ⟨now, Crew.start setup, x⟩).now + (stopAt - now) := by
    rw [hnow]
    exact Nat.le_of_eq (Nat.add_sub_cancel' (Nat.le_of_lt hlater)).symm
  obtain ⟨r, hr, hbefore, hadvance, hleft⟩ :=
    exists_advance_eq hnext hstart (hnow.symm ▸ hlater) hmoments
  refine ⟨r, hr, hbefore, ?_, hleft⟩
  rw [Worker.runUntil, if_neg (Nat.not_le_of_lt hlater)]
  simp only [hadvance, now_catchUp, Nat.max_eq_right (Nat.le_of_lt hbefore)]

/-- A worker that waits for its tasks up to a limit handles alarms that are due by then. -/
theorem exists_await_eq {limit : Time} (hlimit : s.now ≤ limit) : ∃ within budget,
    (s.handleAll src setup within budget).now ≤ limit ∧
      s.await src setup limit = { s.handleAll src setup within budget with
        now := if (s.handleAll src setup within budget).crew.isDone
          then (s.handleAll src setup within budget).now else limit } := by
  refine ⟨_, _, handleAll_induction (fun s' a (hs' : s'.now ≤ limit) _ hin => ?_) hlimit _, rfl⟩
  have hdue := of_decide_eq_true hin
  rw [now_handle]
  refine Nat.max_le.mpr ⟨hs', Nat.le_trans hdue ?_⟩
  split
  · exact hs'
  · exact Nat.le_refl _

/-- What rings next is the first alarm of the source or of the loops, and neither is due earlier. -/
theorem next?_cases {a : Alarm (Option Nat)} (h : s.next? src = some a) :
    ((∃ b, src.alarm? s.source = some b ∧ b.due = a.due ∧ a.call = none) ∨
      ∃ b, s.crew.alarm? = some b ∧ b.due = a.due ∧ a.call = some b.call) ∧
      (∀ b, src.alarm? s.source = some b → a.due ≤ b.due) ∧
      ∀ b, s.crew.alarm? = some b → a.due ≤ b.due := by
  rw [next?] at h
  cases hsource : src.alarm? s.source with
  | none =>
    cases hcrew : s.crew.alarm? with
    | none => simp [hsource, hcrew] at h
    | some b =>
      obtain rfl : _ = a := by simpa [hsource, hcrew] using h
      exact ⟨.inr ⟨b, rfl, rfl, rfl⟩, by simp, by simp⟩
  | some b =>
    cases hcrew : s.crew.alarm? with
    | none =>
      obtain rfl : _ = a := by simpa [hsource, hcrew] using h
      exact ⟨.inl ⟨b, rfl, rfl, rfl⟩, by simp, by simp⟩
    | some c =>
      simp only [hsource, hcrew] at h
      split at h
      · next hbefore =>
        obtain rfl := Option.some.inj h
        have hle := Alarm.due_le_of_isBefore hbefore
        exact ⟨.inr ⟨c, rfl, rfl, rfl⟩, by simpa using hle, by simp⟩
      · next hafter =>
        obtain rfl := Option.some.inj h
        have hle := Alarm.due_le_of_not_isBefore hafter
        exact ⟨.inl ⟨b, rfl, rfl, rfl⟩, by simp, by simpa using hle⟩

/-- Nothing rings next only where neither the source nor a loop has an alarm. -/
theorem alarm?_eq_none_of_next? (h : s.next? src = none) :
    src.alarm? s.source = none ∧ s.crew.alarm? = none := by
  rw [next?] at h
  split at h
  · next hsource hcrew => exact ⟨hsource, hcrew⟩
  · contradiction
  · contradiction
  · split at h <;> contradiction

end Passing

variable {s s' s'' : Shift Site} {setup : Setup}

/-- Something that may happen in virtual time leads from one shift to another. -/
def Leads (setup : Setup) (s s' : Shift Site) : Prop :=
  ∃ os, s.allowsAll setup os = true ∧ s.happenAll setup os = s'

/-- What happens after two rows one after the other. -/
theorem happenAll_append (s : Shift Site) (os ps : List Occurrence) :
    s.happenAll setup (os ++ ps) = (s.happenAll setup os).happenAll setup ps := by
  induction os generalizing s with
  | nil => rfl
  | cons o os ih => exact ih _

theorem allowsAll_append (s : Shift Site) (os ps : List Occurrence) :
    s.allowsAll setup (os ++ ps) =
      (s.allowsAll setup os && (s.happenAll setup os).allowsAll setup ps) := by
  induction os generalizing s with
  | nil => rfl
  | cons o os ih => simp [allowsAll, happenAll, ih, Bool.and_assoc]

/-- What is set for the moments of a shift is not before its first alarms. -/
theorem le_of_mem_dues {d : Time} (hsource : ∀ a, s.source.alarm? = some a → d ≤ a.due)
    (hcrew : ∀ a, s.crew.alarm? = some a → d ≤ a.due) : ∀ due ∈ s.dues, d ≤ due := by
  intro due hdue
  rcases List.mem_append.mp hdue with hsite | hloop
  · obtain ⟨a, ha, rfl⟩ := List.mem_map.mp hsite
    cases hfirst : s.source.alarm? with
    | none =>
      rw [Site.alarm?, Alarm.first?_eq_none_iff] at hfirst
      exact absurd (hfirst ▸ ha) List.not_mem_nil
    | some b => exact Nat.le_trans (hsource b hfirst) ((Alarm.first?_spec hfirst).2 a ha)
  · obtain ⟨stage, hstage, hset⟩ := List.mem_filterMap.mp hloop
    obtain ⟨w, hw, rfl⟩ := Option.map_eq_some_iff.mp hset
    cases hfirst : s.crew.alarm? with
    | none => exact absurd hw (by simp [Crew.wait?_eq_none_of_alarm? hfirst hstage])
    | some b => exact Nat.le_trans (hcrew b hfirst) ((Crew.alarm?_spec hfirst).2 stage hstage w hw)

/-- What rings next is the first alarm of the site or of the loops, and nothing is set for an
earlier moment. -/
theorem next?_spec {a : Alarm (Option Nat)} (h : s.next? Site.source = some a) :
    ((∃ b, s.source.alarm? = some b ∧ b.due = a.due ∧ a.call = none) ∨
      ∃ b, s.crew.alarm? = some b ∧ b.due = a.due ∧ a.call = some b.call) ∧
      ∀ due ∈ s.dues, a.due ≤ due := by
  have hsource : Site.source.alarm? s.source = s.source.alarm?.map fun a => ⟨a.due, a.since, ()⟩ :=
    rfl
  obtain ⟨hcall, hsite, hcrew⟩ := next?_cases h
  rw [hsource] at hcall hsite
  refine ⟨hcall.imp_left ?_, le_of_mem_dues (fun b hb => hsite _ (by rw [hb]; rfl)) hcrew⟩
  rintro ⟨b, hb, hdue, hnone⟩
  obtain ⟨b', hb', rfl⟩ := Option.map_eq_some_iff.mp hb
  exact ⟨b', hb', hdue, hnone⟩

/-- What is set for the moments of a shift is not before what rings next. -/
theorem le_of_mem_dues_of_next? {d : Time}
    (h : ∀ a, s.next? Site.source = some a → d ≤ a.due) : ∀ due ∈ s.dues, d ≤ due := by
  cases hnext : s.next? Site.source with
  | none =>
    obtain ⟨hsource, hcrew⟩ := alarm?_eq_none_of_next? hnext
    have hsite : s.source.alarm? = none := Option.map_eq_none_iff.mp hsource
    exact le_of_mem_dues (by simp [hsite]) (by simp [hcrew])
  | some a => exact fun due hdue => Nat.le_trans (h a hnext) ((next?_spec hnext).2 due hdue)

namespace Leads

theorem refl (s : Shift Site) : s.Leads setup s := ⟨[], rfl, rfl⟩

theorem trans (h : s.Leads setup s') (h' : s'.Leads setup s'') : s.Leads setup s'' := by
  obtain ⟨os, hos, rfl⟩ := h
  obtain ⟨ps, hps, rfl⟩ := h'
  exact ⟨os ++ ps, by rw [allowsAll_append, hos, hps]; rfl, happenAll_append s os ps⟩

theorem of_allows {o : Occurrence} (h : s.allows o = true) : s.Leads setup (s.happen setup o) :=
  ⟨[o], by simp [allowsAll, h], rfl⟩

/-- Time passes up to a moment if nothing is set for an earlier one. -/
theorem arrive {d : Time} (h : ∀ due ∈ s.dues, d ≤ due) :
    s.Leads setup { s with now := max s.now d } := by
  by_cases hpast : d ≤ s.now
  · rw [Nat.max_eq_left hpast]
    exact refl s
  · have hlater : s.now ≤ d := Nat.le_of_not_le hpast
    have hwait : s.now + (d - s.now) = d := Nat.add_sub_cancel' hlater
    have hallowed : s.allows (.wait (d - s.now)) = true := by
      simpa only [allows, hwait, List.all_eq_true, decide_eq_true_eq] using h
    have hleads : s.Leads setup (s.happen setup (.wait (d - s.now))) := of_allows hallowed
    rw [happen, hwait] at hleads
    rwa [Nat.max_eq_right hlater]

/-- A loop that goes on takes its turns. -/
theorem goOn (i budget : Nat) (s : Shift Site) :
    s.Leads setup (s.goOn Site.source setup i budget) := by
  refine goOn_induction (fun s' h hready => h.trans ?_) (refl s) budget
  have hallowed : s'.allows (.turn (.loop i)) = true := by
    simpa [allows, Option.any_eq_true, Option.all_eq_false] using hready
  exact of_allows hallowed

/-- Loops that go on because they poll take their turns. -/
theorem rouseAll (s : Shift Site) : s.Leads setup (s.rouseAll Site.source setup) :=
  rouseAll_induction (fun i budget s' h _ => h.trans (goOn i budget s')) (refl s)

/-- A loop that rings before all else takes its turn then. -/
theorem turn {a : Alarm Nat} (h : s.crew.alarm? = some a) (hdues : ∀ due ∈ s.dues, a.due ≤ due) :
    s.Leads setup (step Site.source setup a.call { s with now := max s.now a.due }) := by
  obtain ⟨⟨stage, w, hstage, hw, hdue⟩, _⟩ := Crew.alarm?_spec h
  have hover : w.due ≤ max s.now a.due := Nat.le_trans (Nat.le_of_eq hdue) (Nat.le_max_right _ _)
  have hallowed : allows { s with now := max s.now a.due } (.turn (.loop a.call)) = true := by
    simp [allows, hstage, Stage.rests_eq_false hw hover]
  exact (arrive hdues).trans (of_allows hallowed)

/-- The site rings its first alarm then if that is set before all else. -/
theorem ring {a : Alarm Callee} (h : s.source.alarm? = some a)
    (hdues : ∀ due ∈ s.dues, a.due ≤ due) :
    s.Leads setup ⟨max s.now a.due, s.crew, s.source.ring (max s.now a.due)⟩ := by
  have hallowed : allows { s with now := max s.now a.due } (.turn .source) = true := by
    rw [allows, h]
    exact decide_eq_true (Nat.le_max_right _ _)
  exact (arrive hdues).trans (of_allows hallowed)

/-- The alarm that rings next is handled by what may happen. -/
theorem handle {a : Alarm (Option Nat)} (h : s.next? Site.source = some a) :
    s.Leads setup (s.handle Site.source setup a) := by
  obtain ⟨hcall, hdues⟩ := next?_spec h
  rcases hcall with ⟨b, hb, hdue, hcall⟩ | ⟨b, hb, hdue, hcall⟩
  · rw [← hdue] at hdues
    simp only [Shift.handle, hcall, ← hdue]
    exact ring hb hdues
  · rw [← hdue] at hdues
    simp only [Shift.handle, hcall, ← hdue]
    exact (turn hb hdues).trans (goOn b.call _ _)

/-- A worker in virtual time goes on by what may happen. -/
theorem handleAll (within : Shift Site → Time → Bool) (budget : Nat) (s : Shift Site) :
    s.Leads setup (s.handleAll Site.source setup within budget) :=
  handleAll_induction (fun _ _ h hnext _ => h.trans (handle hnext)) (refl s) budget

end Leads

end Shift

end Piecework
