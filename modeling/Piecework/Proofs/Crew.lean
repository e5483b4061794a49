import Piecework.Worker.Run
import Mathlib.Data.List.Perm.Basic
import Mathlib.Data.List.Perm.Lattice

/-!
# What passes between the loops and the source

A loop goes round: it asks, gets a task or none, executes it, sends its report, waits for
the answer, and only then asks again. Every move of a schedule either moves one loop on
along this way or changes no loop's place in it, and the count of active tasks moves with
the loops. So after any row of moves, whatever the source has answered and whenever the
request to stop has come, each loop has gone through whole rounds and is at most in the
middle of one more.
-/

namespace Piecework

/-- What passes between a loop and the source in one round, for a task or for none. -/
def Parcel.round : Option Task → List Parcel
  | none => [.asked]
  | some t => [.asked, .got t, .sent t.compute]

/-- Whether a report's answer never came because the source crashed. -/
def Note.isCrashedReport : Note → Bool
  | .reported _ .crashed => true
  | _ => false

namespace Stage

/-- What has passed of the round that a loop is in. -/
def parcels : Stage → List Parcel
  | fetching => [.asked]
  | executing t _ => [.asked, .got t]
  | reporting t => Parcel.round (some t)
  | _ => []

/-- The report that a loop has still to send. -/
def owed? : Stage → Option Report
  | executing t _ => some t.compute
  | _ => none

/-- Whether a loop has got a task and not yet finished with its report. -/
def isBusy : Stage → Bool
  | executing _ _ | reporting _ => true
  | _ => false

/-- Whether a loop will or may ask for a task next. -/
def isFree : Stage → Bool
  | polling | fetching | pausing _ => true
  | _ => false

/-- The way of a loop, with what passes at each of its steps. -/
inductive Steps : Stage → Option Parcel → Stage → Prop where
  | ask : Steps polling (some .asked) fetching
  | obey : Steps polling none stopped
  | wake {w : Wait} : Steps (pausing w) none polling
  | begin {t : Task} {w : Wait} : Steps fetching (some (.got t)) (executing t w)
  | pause {w : Wait} : Steps fetching none (pausing w)
  | crash : Steps fetching none stopped
  | send {t : Task} {w : Wait} : Steps (executing t w) (some (.sent t.compute)) (reporting t)
  | finish {t : Task} : Steps (reporting t) none polling

variable {a b : Stage} {p : Option Parcel}

/-- A step goes on with the round that the loop is in, or with the next one. -/
theorem Steps.exists_parcels_eq (h : Steps a p b) :
    ∃ done : List (Option Task),
      a.parcels ++ p.toList = done.flatMap Parcel.round ++ b.parcels := by
  cases h with
  | pause => exact ⟨[none], rfl⟩
  | crash => exact ⟨[none], rfl⟩
  | @finish t => exact ⟨[some t], rfl⟩
  | _ => exact ⟨[], rfl⟩

/-- A step that makes a loop busy takes it from the free ones. -/
theorem Steps.busy_add_free_le (h : Steps a p b) :
    b.isBusy.toNat + b.isFree.toNat ≤ a.isBusy.toNat + a.isFree.toNat := by
  cases h <;> simp [isBusy, isFree]

end Stage

namespace Crew

/-- The number of reports that crashed, whose tasks stay counted. -/
def lost (c : Crew) : Nat := c.log.countP (·.2.isCrashedReport)

/-- What a move can do: it leaves every loop in its round, it moves one loop a step on and the count
with it, or a report crashes and ends its loop. -/
inductive Changes (c : Crew) : Option (Nat × Parcel) → Crew → Prop where
  | kept {c' : Crew} {f : Stage → Stage} : c'.stages = c.stages.map f →
      (∀ s, (f s).parcels = s.parcels) → (∀ s, (f s).owed? = s.owed?) →
      (∀ s, (f s).isBusy = s.isBusy) → (∀ s, (f s).isFree = true → s.isFree = true) →
      c'.active = c.active → c'.lost = c.lost → Changes c none c'
  | moved {c' : Crew} {i : Nat} {a b : Stage} {p : Option Parcel} : c.stages[i]? = some a →
      a.Steps p b → c'.stages = c.stages.set i b →
      c'.active = c.active + b.isBusy.toNat - a.isBusy.toNat → c'.lost = c.lost →
      Changes c (p.map (i, ·)) c'
  | crashed {c' : Crew} {i : Nat} {t : Task} : c.stages[i]? = some (.reporting t) →
      c'.stages = c.stages.set i .stopped → c'.active = c.active → c'.lost = c.lost + 1 →
      Changes c none c'

/-- Setting the flag, or doing nothing at all, keeps every loop where it is. -/
theorem changes_of_flag (c : Crew) (flag : Bool) : Changes c none { c with stopping := flag } :=
  .kept (f := id) (List.map_id _).symm (fun _ => rfl) (fun _ => rfl) (fun _ => rfl) (fun _ => id)
    rfl rfl

variable {c : Crew} {i : Nat}

@[simp] theorem lost_put (i : Nat) (s : Stage) (c : Crew) : (c.put i s).lost = c.lost := rfl

/-- A note counts as a lost report if it says that one crashed. -/
@[simp] theorem lost_note (now : Time) (n : Note) (c : Crew) :
    (c.note now n).lost = c.lost + n.isCrashedReport.toNat := by
  cases hcrashed : n.isCrashedReport <;> simp [lost, note, hcrashed]

/-- A loop that polls asks, or ends. -/
theorem changes_ask (h : c.stages[i]? = some .polling) :
    Changes c (if c.stopping then none else some (i, .asked)) (c.ask i) := by
  cases hstopping : c.stopping with
  | false => exact .moved h .ask (by simp [ask, put, hstopping]) rfl rfl
  | true => exact .moved h .obey (by simp [ask, put, hstopping]) rfl rfl

/-- The answer to a request loses no report. -/
@[simp] theorem lost_receive (setup : Setup) (now : Time) (i : Nat) (a : Fetched) (c : Crew) :
    (c.receive setup now i a).lost = c.lost := by
  cases a with
  | task t => exact lost_note now (.fetched t) c
  | nothing => exact lost_note now .foundNothing c
  | failed => exact lost_note now .fetchFailed c
  | crashed => exact lost_note now .fetchCrashed c

/-- The answer to a report loses it if the source crashes. -/
@[simp] theorem lost_settle (now : Time) (t : Task) (i : Nat) (a : Receipt) (c : Crew) :
    (c.settle now t i a).lost =
      c.lost + (Note.reported t.compute a).isCrashedReport.toNat := by
  rw [← lost_note now (.reported t.compute a) c]
  cases a <;> rfl

/-- A loop that asked goes on with the answer. -/
theorem changes_receive (h : c.stages[i]? = some .fetching) (setup : Setup) (now : Time)
    (a : Fetched) : Changes c (a.parcel?.map (i, ·)) (c.receive setup now i a) := by
  have hlost := lost_receive setup now i a c
  cases a with
  | task t => exact .moved h .begin rfl rfl hlost
  | nothing => exact .moved h .pause rfl rfl hlost
  | failed => exact .moved h .pause rfl rfl hlost
  | crashed => exact .moved h .crash rfl rfl hlost

/-- A loop that reported goes on with the answer. -/
theorem changes_settle {t : Task} (h : c.stages[i]? = some (.reporting t)) (now : Time)
    (a : Receipt) : Changes c none (c.settle now t i a) := by
  have hlost := lost_settle now t i a c
  cases a with
  | crashed => exact .crashed h rfl rfl hlost
  | accepted => exact .moved h .finish rfl rfl hlost
  | refused => exact .moved h .finish rfl rfl hlost
  | failed reason => exact .moved h .finish rfl rfl hlost

/-- The request to stop keeps every loop where it is. -/
theorem changes_request (c : Crew) : Changes c none c.request := changes_of_flag c true

/-- Waking loops leaves every loop in its round. -/
theorem changes_notify (c : Crew) : Changes c none c.notify := by
  refine .kept rfl (fun s => ?_) (fun s => ?_) (fun s => ?_) (fun s => ?_) rfl rfl
  all_goals cases s <;> simp [Stage.wake, Stage.parcels, Stage.owed?, Stage.isBusy, Stage.isFree]

/-- Every move is one of the changes. -/
theorem changes_move (setup : Setup) (now : Time) (c : Crew) (m : Move) :
    Changes c (c.move setup now m).1 (c.move setup now m).2 := by
  cases m with
  | go i =>
    simp only [move]
    split
    · next h => exact changes_ask h
    · next h => exact .moved h .wake rfl rfl rfl
    · next h => exact .moved h .send rfl rfl rfl
    · exact changes_of_flag c c.stopping
  | give i a =>
    simp only [move]
    split
    · next h => exact changes_receive h setup now a
    · exact changes_of_flag c c.stopping
  | confirm i a =>
    simp only [move]
    split
    · next h => exact changes_settle h now a
    · exact changes_of_flag c c.stopping
  | request => exact changes_request c
  | notify => exact changes_notify c

/-- A change keeps the number of loops. -/
theorem Changes.length_eq {c c' : Crew} {p : Option (Nat × Parcel)} (h : c.Changes p c') :
    c'.stages.length = c.stages.length := by
  cases h with
  | kept hstages => rw [hstages, List.length_map]
  | moved _ _ hstages => rw [hstages, List.length_set]
  | crashed _ hstages => rw [hstages, List.length_set]

/-! ## What has passed accounts for the loops -/

/-- What has passed between one loop and the source. -/
def passedTo (i : Nat) (ps : List (Nat × Parcel)) : List Parcel :=
  (ps.filter (·.1 = i)).map (·.2)

@[simp] theorem passedTo_append (i : Nat) (ps qs : List (Nat × Parcel)) :
    passedTo i (ps ++ qs) = passedTo i ps ++ passedTo i qs := by
  simp [passedTo]

/-- What passes to one loop passes to no other. -/
theorem passedTo_map (i j : Nat) (p : Option Parcel) :
    passedTo j (p.map (i, ·)).toList = if i = j then p.toList else [] := by
  cases p with
  | none => simp [passedTo]
  | some p => by_cases hij : i = j <;> simp [passedTo, hij]

/-- What has passed accounts for the place of every loop in its round, for the reports still to be
sent, and for the count of active tasks. -/
structure Accounts (ps : List (Nat × Parcel)) (c : Crew) : Prop where
  rounds : ∀ i, ∃ done : List (Option Task),
    passedTo i ps = done.flatMap Parcel.round ++ (c.stages[i]?).elim [] Stage.parcels
  reports : ((ps.filterMap (·.2.task?)).map Task.compute).Perm
    (ps.filterMap (·.2.report?) ++ c.stages.filterMap Stage.owed?)
  active_eq : c.active = c.stages.countP Stage.isBusy + c.lost
  active_le : c.active + c.stages.countP Stage.isFree ≤ c.stages.length

/-- Replacing one place of a row leaves what stands before and behind it. -/
theorem exists_split_set {α : Type} {l : List α} {i : Nat} {a : α} (h : l[i]? = some a) :
    ∃ before behind, l = before ++ a :: behind ∧ ∀ b, l.set i b = before ++ b :: behind := by
  induction l generalizing i with
  | nil => simp at h
  | cons x l ih =>
    cases i with
    | zero =>
      obtain rfl : x = a := by simpa using h
      exact ⟨[], l, rfl, fun b => rfl⟩
    | succ i =>
      obtain ⟨before, behind, rfl, hset⟩ := ih (by simpa using h)
      exact ⟨x :: before, behind, rfl, fun b => congrArg (x :: ·) (hset b)⟩

/-- Replacing a loop's stage changes a count of the stages by that of the loop. -/
theorem countP_set_add {stages : List Stage} {i : Nat} {a : Stage} (h : stages[i]? = some a)
    (P : Stage → Bool) (b : Stage) :
    (stages.set i b).countP P + (P a).toNat = stages.countP P + (P b).toNat := by
  obtain ⟨before, behind, rfl, hset⟩ := exists_split_set h
  rw [hset]
  rw [List.countP_append, List.countP_append, List.countP_cons, List.countP_cons]
  cases P a <;> cases P b <;> simp [Nat.add_assoc]

/-- Replacing a loop's stage changes what is read off the stages by what is read off the loop's. -/
theorem filterMap_set_perm {α : Type} {stages : List Stage} {i : Nat} {a : Stage}
    (h : stages[i]? = some a) (f : Stage → Option α) (b : Stage) :
    ((stages.set i b).filterMap f ++ (f a).toList).Perm
      (stages.filterMap f ++ (f b).toList) := by
  obtain ⟨before, behind, rfl, hset⟩ := exists_split_set h
  rw [hset]
  have hcons (s : Stage) : (s :: behind).filterMap f = (f s).toList ++ behind.filterMap f := by
    cases hs : f s <;> simp [hs]
  simp only [List.filterMap_append, hcons, List.append_assoc]
  refine .append_left _ (List.perm_append_comm.trans ?_)
  rw [List.append_assoc]
  exact List.perm_append_comm_assoc _ _ _

/-- At the start nothing has passed and every loop polls. -/
theorem accounts_start (setup : Setup) : (start setup).Accounts [] where
  rounds i := by
    refine ⟨[], ?_⟩
    cases hstage : (start setup).stages[i]? with
    | none => rfl
    | some s =>
      obtain rfl := List.eq_of_mem_replicate (List.mem_of_getElem? hstage)
      rfl
  reports := by simp [start, Stage.owed?]
  active_eq := by simp [start, lost, List.countP_replicate, Stage.isBusy]
  active_le := by simp [start, List.countP_replicate, Stage.isFree]

/-- A loop that stands elsewhere after a parcel has passed keeps the account of its rounds, if what
had passed of its round and the parcel are whole rounds and what has passed of the next. -/
theorem rounds_set {ps : List (Nat × Parcel)} {stages : List Stage} {i : Nat} {a b : Stage}
    (hget : stages[i]? = some a) {p : Option Parcel}
    (hrounds : ∀ j, ∃ done : List (Option Task),
      passedTo j ps = done.flatMap Parcel.round ++ (stages[j]?).elim [] Stage.parcels)
    (hnext : ∃ done : List (Option Task),
      a.parcels ++ p.toList = done.flatMap Parcel.round ++ b.parcels)
    (j : Nat) :
    ∃ done : List (Option Task), passedTo j (ps ++ (p.map (i, ·)).toList) =
      done.flatMap Parcel.round ++ ((stages.set i b)[j]?).elim [] Stage.parcels := by
  obtain ⟨done, hdone⟩ := hrounds j
  rw [passedTo_append, passedTo_map, hdone]
  by_cases hij : i = j
  · subst hij
    obtain ⟨more, hmore⟩ := hnext
    have hlt : i < stages.length := (List.getElem?_eq_some_iff.mp hget).1
    refine ⟨done ++ more, ?_⟩
    rw [hget, List.getElem?_set_self hlt]
    simp [hmore]
  · exact ⟨done, by simp [hij]⟩

/-- A step that brings a task leaves its report to be sent, and sending it settles that. -/
theorem reports_set {ps : List (Nat × Parcel)} {stages : List Stage} {i : Nat} {a b : Stage}
    (hget : stages[i]? = some a) {p : Option Parcel} (hsteps : a.Steps p b)
    (hreports : ((ps.filterMap (·.2.task?)).map Task.compute).Perm
      (ps.filterMap (·.2.report?) ++ stages.filterMap Stage.owed?)) :
    (((ps ++ (p.map (i, ·)).toList).filterMap (·.2.task?)).map Task.compute).Perm
      ((ps ++ (p.map (i, ·)).toList).filterMap (·.2.report?) ++
        (stages.set i b).filterMap Stage.owed?) := by
  have howed := filterMap_set_perm hget Stage.owed? b
  cases hsteps with
  | @begin t w =>
    have hmore : ((stages.set i (.executing t w)).filterMap Stage.owed?).Perm
        (stages.filterMap Stage.owed? ++ [t.compute]) := by simpa [Stage.owed?] using howed
    have hall := hreports.append_right [t.compute]
    rw [List.append_assoc] at hall
    have hnext := hall.trans (hmore.symm.append_left _)
    simpa [Parcel.task?, Parcel.report?] using hnext
  | @send t w =>
    have hfewer : ([t.compute] ++ (stages.set i (.reporting t)).filterMap Stage.owed?).Perm
        (stages.filterMap Stage.owed?) :=
      List.perm_append_comm.trans (by simpa [Stage.owed?] using howed)
    have hnext := hreports.trans (hfewer.symm.append_left _)
    simpa [Parcel.task?, Parcel.report?] using hnext
  | _ =>
    simp only [Stage.owed?, Option.toList_none, List.append_nil] at howed
    simpa [Parcel.task?, Parcel.report?] using hreports.trans (howed.symm.append_left _)

/-- A change of the loops goes on with what has passed. -/
theorem Accounts.changes {ps : List (Nat × Parcel)} {c c' : Crew} {p : Option (Nat × Parcel)}
    (h : c.Accounts ps) (hc : c.Changes p c') : c'.Accounts (ps ++ p.toList) := by
  cases hc with
  | kept hstages hparcels howed hbusy hfree hactive hlost =>
    rw [Option.toList_none, List.append_nil]
    refine ⟨fun i => ?_, ?_, ?_, ?_⟩
    · obtain ⟨done, hdone⟩ := h.rounds i
      refine ⟨done, hdone.trans ?_⟩
      rw [hstages, List.getElem?_map]
      cases c.stages[i]? <;> simp [hparcels]
    · simpa [hstages, List.filterMap_map, Function.comp_def, howed] using h.reports
    · simpa [hstages, List.countP_map, Function.comp_def, hbusy, hactive, hlost] using h.active_eq
    · have hfewer : c'.stages.countP Stage.isFree ≤ c.stages.countP Stage.isFree := by
        rw [hstages, List.countP_map]
        exact List.countP_mono_left fun s _ => hfree s
      have hlength : c'.stages.length = c.stages.length := by rw [hstages, List.length_map]
      have hle := h.active_le
      omega
  | @moved _ i a b p hget hsteps hstages hactive hlost =>
    have hbusy := countP_set_add hget Stage.isBusy b
    have hfree := countP_set_add hget Stage.isFree b
    have hroom := hsteps.busy_add_free_le
    have heq := h.active_eq
    have hle := h.active_le
    refine ⟨?_, ?_, ?_, ?_⟩
    · rw [hstages]
      exact rounds_set hget h.rounds hsteps.exists_parcels_eq
    · rw [hstages]
      exact reports_set hget hsteps h.reports
    · rw [hstages]
      omega
    · rw [hstages, List.length_set]
      omega
  | @crashed _ i t hget hstages hactive hlost =>
    have hbusy := countP_set_add hget Stage.isBusy .stopped
    have hfree := countP_set_add hget Stage.isFree .stopped
    simp only [Stage.isBusy, Stage.isFree, Bool.toNat_true, Bool.toNat_false] at hbusy hfree
    have heq := h.active_eq
    have hle := h.active_le
    refine ⟨?_, ?_, ?_, ?_⟩
    · rw [hstages]
      exact rounds_set (p := none) hget h.rounds ⟨[some t], rfl⟩
    · rw [hstages]
      have howed := (filterMap_set_perm hget Stage.owed? .stopped).symm
      simp only [Stage.owed?, Option.toList_none, List.append_nil] at howed
      rw [Option.toList_none, List.append_nil]
      exact h.reports.trans (howed.append_left _)
    · rw [hstages]
      omega
    · rw [hstages, List.length_set]
      omega

/-! ## Rows of moves -/

/-- A row of moves goes on with what has passed. -/
theorem Accounts.moveAll {ps : List (Nat × Parcel)} {c : Crew} (h : c.Accounts ps) (setup : Setup)
    (moves : List (Time × Move)) :
    (c.moveAll setup moves).2.Accounts (ps ++ (c.moveAll setup moves).1) := by
  induction moves generalizing c ps with
  | nil => simpa [Crew.moveAll] using h
  | cons m ms ih =>
    have hrest := ih (h.changes (changes_move setup m.1 c m.2))
    rwa [List.append_assoc] at hrest

/-- A row of moves keeps the number of loops. -/
theorem length_moveAll (setup : Setup) (c : Crew) (moves : List (Time × Move)) :
    (c.moveAll setup moves).2.stages.length = c.stages.length := by
  induction moves generalizing c with
  | nil => rfl
  | cons m ms ih => exact (ih _).trans (changes_move setup m.1 c m.2).length_eq

/-- A move loses no report unless the source crashes on one. -/
theorem lost_move (setup : Setup) (now : Time) (c : Crew) {m : Move}
    (hm : ∀ i, m ≠ .confirm i .crashed) : (c.move setup now m).2.lost = c.lost := by
  cases m with
  | go i =>
    simp only [move]
    split <;> rfl
  | give i a =>
    simp only [move]
    split
    · exact lost_receive setup now i a c
    · rfl
  | confirm i a =>
    simp only [move]
    split
    · next t _ =>
      have hanswer : (Note.reported t.compute a).isCrashedReport = false := by
        cases a with
        | crashed => exact absurd rfl (hm i)
        | _ => rfl
      rw [lost_settle, hanswer]
      rfl
    · rfl
  | request => rfl
  | notify => rfl

/-- A row of moves loses no report unless the source crashes on one. -/
theorem lost_moveAll (setup : Setup) (c : Crew) {moves : List (Time × Move)}
    (hmoves : ∀ m ∈ moves, ∀ i, m.2 ≠ .confirm i .crashed) :
    (c.moveAll setup moves).2.lost = c.lost := by
  induction moves generalizing c with
  | nil => rfl
  | cons m ms ih =>
    obtain ⟨hm, hms⟩ := List.forall_mem_cons.mp hmoves
    exact (ih _ hms).trans (lost_move setup m.1 c hm)

/-- Moves are made one row after the other. -/
theorem moveAll_append (setup : Setup) (c : Crew) (ms ns : List (Time × Move)) :
    (c.moveAll setup (ms ++ ns)).2 = ((c.moveAll setup ms).2.moveAll setup ns).2 := by
  induction ms generalizing c with
  | nil => rfl
  | cons m ms ih => exact ih _

/-- A loop that is put at a stage stands there. -/
theorem getElem?_put {s s' : Stage} (h : c.stages[i]? = some s) :
    (c.put i s').stages[i]? = some s' :=
  List.getElem?_set_self (List.getElem?_eq_some_iff.mp h).1

/-- With a source that answers at once, asking and going on with the answer are two moves. -/
theorem exists_moves_fetch {σ : Type} (src : Source σ) (setup : Setup) (now : Time) (s : σ)
    (h : c.stages[i]? = some .polling) :
    ∃ moves, (c.fetch src setup now i s).1 = (c.moveAll setup moves).2 := by
  have hask : (c.move setup now (.go i)).2 = c.ask i := by simp [move, h]
  cases hstopping : c.stopping with
  | true => exact ⟨[(now, .go i)], by simp [fetch, hstopping, moveAll, hask]⟩
  | false =>
    have hfetching : (c.ask i).stages[i]? = some .fetching := by
      rw [ask, hstopping]
      exact getElem?_put h
    have hgive : ((c.ask i).move setup now (.give i (src.fetch now s).1)).2 =
        (c.ask i).receive setup now i (src.fetch now s).1 := by simp [move, hfetching]
    refine ⟨[(now, .go i), (now, .give i (src.fetch now s).1)], ?_⟩
    simp [fetch, hstopping, moveAll, hask, hgive]

/-- With a source that answers at once, reporting and going on with the answer are two moves. -/
theorem exists_moves_deliver {σ : Type} (src : Source σ) (setup : Setup) (now : Time) (s : σ)
    {t : Task} {w : Wait} (h : c.stages[i]? = some (.executing t w)) :
    ∃ moves, (c.deliver src now t i s).1 = (c.moveAll setup moves).2 := by
  have hsend : (c.move setup now (.go i)).2 = c.put i (.reporting t) := by simp [move, h]
  have hreporting : (c.put i (.reporting t)).stages[i]? = some (.reporting t) := getElem?_put h
  have hconfirm : ((c.put i (.reporting t)).move setup now
      (.confirm i (src.send now t.compute s).1)).2 =
        (c.put i (.reporting t)).settle now t i (src.send now t.compute s).1 := by
    simp [move, hreporting]
  refine ⟨[(now, .go i), (now, .confirm i (src.send now t.compute s).1)], ?_⟩
  simp [deliver, moveAll, hsend, hconfirm]

/-- With a source that answers at once, a turn is a row of moves. -/
theorem exists_moves_take {σ : Type} (src : Source σ) (setup : Setup) (now : Time) (c : Crew)
    (s : σ) (turn : Turn) :
    ∃ moves, (c.take src setup now s turn).1 = (c.moveAll setup moves).2 := by
  cases turn with
  | loop i =>
    simp only [take, step]
    split
    · next h => exact exists_moves_fetch src setup now s h
    · next h => exact ⟨[(now, .go i)], by simp [moveAll, move, h]⟩
    · next h => exact exists_moves_deliver src setup now s h
    · exact ⟨[], rfl⟩
  | request => exact ⟨[(now, .request)], rfl⟩
  | notify => exact ⟨[(now, .notify)], rfl⟩
  | source => exact ⟨[], rfl⟩

/-- With a source that answers at once, a row of turns is a row of moves. -/
theorem exists_moves_takeAll {σ : Type} (src : Source σ) (setup : Setup) (c : Crew) (s : σ)
    (turns : List (Time × Turn)) :
    ∃ moves, (c.takeAll src setup s turns).1 = (c.moveAll setup moves).2 := by
  induction turns generalizing c s with
  | nil => exact ⟨[], rfl⟩
  | cons turn turns ih =>
    obtain ⟨first, hfirst⟩ := exists_moves_take src setup turn.1 c s turn.2
    obtain ⟨rest, hrest⟩ := ih (c.take src setup turn.1 s turn.2).1
      (c.take src setup turn.1 s turn.2).2
    refine ⟨first ++ rest, ?_⟩
    rw [moveAll_append, ← hfirst]
    exact hrest

/-- Whatever the source answers, and however the loops' moves and the request to stop interleave:
what passes between one loop and the source are whole rounds, in each of which the loop asked and
either got no task or got one and sent the report that it computed for it, and then at most the
beginning of one more, in which the loop still stands. Taken together, the reports sent are those of
the tasks that the loops got, except for the tasks still being executed. The count of active tasks
is the number of loops that have got a task and not yet finished with its report, beside the reports
on which the source crashed, of which there are none if it never does; it is at most the number of
loops, and a loop that finishes with a report finds it above zero. -/
theorem every_task_reported_once (setup : Setup) (moves : List (Time × Move)) :
    let r := (start setup).moveAll setup moves
    (∀ i, ∃ done : List (Option Task),
        passedTo i r.1 = done.flatMap Parcel.round ++ (r.2.stages[i]?).elim [] Stage.parcels) ∧
      ((r.1.filterMap (·.2.task?)).map Task.compute).Perm
        (r.1.filterMap (·.2.report?) ++ r.2.stages.filterMap Stage.owed?) ∧
      r.2.active = r.2.stages.countP Stage.isBusy + r.2.lost ∧
      ((∀ m ∈ moves, ∀ i, m.2 ≠ .confirm i .crashed) →
        r.2.active = r.2.stages.countP Stage.isBusy) ∧
      r.2.active ≤ setup.loops ∧
      ∀ (i : Nat) (t : Task), r.2.stages[i]? = some (.reporting t) → 0 < r.2.active := by
  intro r
  have haccounts : r.2.Accounts r.1 := (accounts_start setup).moveAll setup moves
  have hactive := haccounts.active_eq
  refine ⟨haccounts.rounds, haccounts.reports, hactive, fun hmoves => ?_, ?_, fun i t hget => ?_⟩
  · have hlost : r.2.lost = 0 := lost_moveAll setup (start setup) hmoves
    rw [hactive, hlost, Nat.add_zero]
  · have hlength : r.2.stages.length = setup.loops := by
      rw [length_moveAll, start, List.length_replicate]
    exact Nat.le_trans (Nat.le_add_right _ _) (hlength ▸ haccounts.active_le)
  · have hbusy : 0 < r.2.stages.countP Stage.isBusy :=
      List.countP_pos_iff.mpr ⟨_, List.mem_of_getElem? hget, rfl⟩
    exact hactive ▸ Nat.lt_of_lt_of_le hbusy (Nat.le_add_right _ _)

/-- Of two loops, one fails to report and the other gets its task only after the request to stop,
and finds it unknown when it reports. Both tasks are reported once and nothing stays counted. -/
theorem every_task_reported_once_past_failures :
    let sum : Task := ⟨⟨1, .add, 1, 2, 1000⟩, 1⟩
    let quotient : Task := ⟨⟨1, .div, 3, 0, 2000⟩, 2⟩
    let moves : List (Time × Move) := [(0, .go 0), (0, .give 0 (.task sum)), (10, .go 1),
      (20, .request), (25, .give 1 (.task quotient)), (1000, .go 0),
      (1005, .confirm 0 (.failed "refused")), (1005, .go 0), (2025, .go 1),
      (2030, .confirm 1 .refused), (2030, .go 1)]
    let r := (start { concurrency := 2 }).moveAll { concurrency := 2 } moves
    [sum.compute, quotient.compute].Perm (r.1.filterMap (·.2.report?)) ∧ r.2.active = 0 := by
  intro sum quotient moves r
  obtain ⟨_, hreports, _, hactive, _⟩ := every_task_reported_once { concurrency := 2 } moves
  have hstages : r.2.stages = [.stopped, .stopped] := by decide +kernel
  have hgot : r.1.filterMap (·.2.task?) = [sum, quotient] := by decide +kernel
  have hcounted : r.2.active = r.2.stages.countP Stage.isBusy := hactive (by simp [moves])
  have hsent : ((r.1.filterMap (·.2.task?)).map Task.compute).Perm
      (r.1.filterMap (·.2.report?) ++ r.2.stages.filterMap Stage.owed?) := hreports
  rw [hgot, hstages] at hsent
  rw [hstages] at hcounted
  exact ⟨hsent.trans (.of_eq (List.append_nil _)), hcounted⟩

end Crew

end Piecework
