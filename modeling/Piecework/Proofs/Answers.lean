import Piecework.Proofs.Accounting
import Piecework.Proofs.Persistence

/-!
# Operators, tasks and answers

Every operator of a compiled text becomes at most one task, and every task is answered at
most once. What is not answered yet is queued, so an expression that has got a value has
had a task and an answer for every operator. A failure leaves operators that never become
tasks and tasks that are dropped, hence only the bounds.
-/

namespace Piecework

namespace Share

/-- With `n` tasks created and `k` of them answered so far: there are at most `total` tasks and,
together with those still queued, at most `n` answers; both sums are met as long as the expression
has not failed. -/
structure Tracks (total n k : Nat) (s : Share) : Prop where
  counts : s.Counts total n
  created_le : n ≤ total
  answered_le : k + s.tasks.length ≤ n
  answered_eq : ∀ e, s.expression = some e → (∀ reason, e.status ≠ .failed reason) →
    k + s.tasks.length = n

variable {total n k : Nat}

/-- Tracking is a matter of the expression and of how many tasks are queued. -/
theorem Tracks.of_tasks_eq {s s' : Share} (h : s.Tracks total n k)
    (hexpression : s'.expression = s.expression) (htasks : s'.tasks = s.tasks) :
    s'.Tracks total n k :=
  ⟨h.counts.of_expression_eq hexpression, h.created_le, htasks ▸ h.answered_le,
    htasks ▸ hexpression ▸ h.answered_eq⟩

/-- Without the number of one of its tasks a share has one task less. -/
theorem length_filter_id_ne (s : Share) (hnodup : (s.tasks.map (·.id)).Nodup) {t : Task}
    (ht : t ∈ s.tasks) : (s.entries.filter (·.task.id ≠ t.id)).length + 1 = s.tasks.length := by
  obtain ⟨q, hq, rfl⟩ := List.mem_map.mp ht
  rw [tasks, List.map_map] at hnodup
  rw [tasks, List.length_map]
  exact Queue.length_filter_id_ne hnodup hq

/-- An expression that fails drops its tasks, and only the bounds are left of the sums. -/
theorem tracks_fail_of_open {e : Expression} (hopen : e.isFinal = false) (hcreated : n ≤ total)
    (hanswered : k ≤ n) (reason : String) (es : List Entry) :
    (Share.fail reason ⟨some e, es⟩).Tracks total n k := by
  refine ⟨counts_fail_of_open hopen reason es, hcreated, by simpa [Share.fail, tasks], ?_⟩
  intro e' he' hlive
  rw [fail_of_open hopen] at he'
  obtain rfl := Option.some.inj he'
  exact absurd rfl (hlive reason)

/-- Failing keeps the bounds of an open expression and the sums of a finished one. -/
theorem Tracks.fail {s : Share} (h : s.Tracks total n k) (hs : s.IsConsistent) (reason : String) :
    (s.fail reason).Tracks total n k := by
  obtain ⟨_ | e, es⟩ := s
  · exact h.counts.elim
  · cases hfinal : e.isFinal with
    | true =>
      have htasks : (⟨some e, es⟩ : Share).tasks = [] :=
        hs.tasks_eq_nil fun e' he' => Option.some.inj he' ▸ hfinal
      exact h.of_tasks_eq (fail_expression_of_isFinal rfl hfinal reason) htasks.symm
    | false =>
      exact tracks_fail_of_open hfinal h.created_le
        (Nat.le_trans (Nat.le_add_right k _) h.answered_le) reason es

/-- A done expression has had a task and an answer for every operator. -/
theorem Tracks.eq_of_done {s : Share} (h : s.Tracks total n k) (hs : s.IsConsistent)
    {e : Expression} (he : s.expression = some e) {v : Int64} (hdone : e.status = .done v) :
    n = total ∧ k = total := by
  have hlive : ∀ reason, e.status ≠ .failed reason := by simp [hdone]
  obtain ⟨hprogram, htasks⟩ : e.program = [.number v] ∧ s.tasks = [] := by
    simpa only [IsConsistent, he, hdone] using hs
  have hcreated := h.counts.add_eq he hlive
  have hanswered := h.answered_eq e he hlive
  rw [hprogram] at hcreated
  rw [htasks] at hanswered
  exact ⟨hcreated, hanswered.trans hcreated⟩

/-- The tasks of a pass are cut out of its program, however the pass ends. -/
theorem Passes.exists_cuts {p : Program} {s s' : Share} {created : List Task}
    (h : Passes p s created s') : ∃ q, Program.Cuts created p q := by
  cases h with
  | pending _ _ hcuts _ => exact ⟨_, hcuts⟩
  | completed _ => exact ⟨p, .nil p⟩
  | divided hcuts => exact ⟨_, hcuts⟩
  | malformed _ hcuts => exact ⟨_, hcuts⟩

/-- A pass cuts out no more tasks than its program has operators. -/
theorem Passes.length_created_le {p : Program} {s s' : Share} {created : List Task}
    (h : Passes p s created s') : created.length ≤ p.operatorCount := by
  obtain ⟨q, hcuts⟩ := h.exists_cuts
  rw [hcuts.operatorCount_eq]
  exact Nat.le_add_left _ _

/-- A pass over the program of an open expression adds its tasks to those created and to those
queued. -/
theorem Passes.tracks {e : Expression} {es : List Entry} {created : List Task} {s' : Share}
    (h : Passes e.program ⟨some e, es⟩ created s') (hopen : e.isFinal = false)
    (hcount : n + e.program.operatorCount = total) (hanswered : k + es.length = n) :
    s'.Tracks total (n + created.length) k := by
  have hcounts := h.counts hopen hcount
  have hcreated : n + created.length ≤ total := by
    rw [← hcount]
    exact Nat.add_le_add_left h.length_created_le n
  have hfailed : k ≤ n + created.length := by lia
  cases h with
  | @pending _ q _ _ _ _ =>
    have hqueued : k + (es.map (·.task) ++ created).length = n + created.length := by
      rw [List.length_append, List.length_map]
      lia
    have htasks : tasks ⟨some (e.advance q), es ++ created.map (⟨·, none⟩)⟩ =
        es.map (·.task) ++ created := by simp [tasks, Function.comp_def]
    exact ⟨hcounts, hcreated, htasks ▸ Nat.le_of_eq hqueued, fun _ _ _ => htasks ▸ hqueued⟩
  | @completed v _ =>
    have hqueued : k + (tasks ⟨some (e.complete v), es⟩).length = n := by
      rwa [tasks, List.length_map]
    exact ⟨hcounts, hcreated, Nat.le_of_eq hqueued, fun _ _ _ => hqueued⟩
  | divided _ => exact tracks_fail_of_open hopen hcreated hfailed _ es
  | malformed _ _ => exact tracks_fail_of_open hopen hcreated hfailed _ es

/-- What is tracked of an expression, whether it was submitted or not: its operators are those of
the program that its text compiles to. -/
def IsTracked (n k : Nat) (s : Share) : Prop :=
  match s.expression with
  | none => n = 0 ∧ k = 0
  | some e => ∃ p, Infix.compile e.text = .ok p ∧ s.Tracks p.operatorCount n k

/-- A submitted expression is tracked by the program that its text compiles to. -/
theorem isTracked_iff {s : Share} {e : Expression} (he : s.expression = some e) :
    s.IsTracked n k ↔ ∃ p, Infix.compile e.text = .ok p ∧ s.Tracks p.operatorCount n k := by
  simp only [IsTracked, he]

end Share

namespace Moment

variable {m : Moment} {x : ExpressionId} {total n k : Nat}

/-- Whether an event brings an accepted report on a task of an expression. -/
def answers (x : ExpressionId) (m : Moment) (ev : Event) : Bool :=
  (m.accepted? ev).any (·.1.expression = x)

/-- The number of accepted reports of a run on tasks of an expression. -/
def answersAll (x : ExpressionId) (m : Moment) (es : List Event) : Nat :=
  (m.trace es).countP fun p => p.1.answers x p.2

/-- The answers of a run are that of its first event and those of the rest. -/
theorem answersAll_cons (x : ExpressionId) (m : Moment) (ev : Event) (es : List Event) :
    m.answersAll x (ev :: es) = (m.answers x ev).toNat + (m.step ev).2.answersAll x es := by
  simp only [answersAll, trace, List.countP_cons, Nat.add_comm]
  cases m.answers x ev <;> rfl

/-- An accepted report on a task of another expression does not answer it. -/
theorem answers_of_others {ev : Event} (h : ∀ a ∈ m.accepted? ev, a.1.expression ≠ x) :
    m.answers x ev = false := by
  simpa [answers, Option.any_eq_false] using h

/-- An event that times something out brings no report. -/
theorem answers_of_overdue {ev : Event} {t : Task} (ht : t ∈ m.overdue ev) :
    m.answers x ev = false := by
  cases ev with
  | report r => contradiction
  | submit text owner => rfl
  | poll => rfl
  | reclaim id => rfl
  | wait ms => rfl

/-- An accepted report on a task of an expression answers it. -/
theorem answers_of_accepted {r : Report} {t : Task}
    (haccepted : m.accepted? (.report r) = some (t, r)) (hx : t.expression = x) :
    m.answers x (.report r) = true := by
  simp [answers, haccepted, hx]

/-- Every change of a submitted expression tracks the tasks that it creates and answers. -/
theorem Change.tracks {ev : Event} {s s' : Share} {created : List Task}
    (h : m.Change x ev s created s') (hs : s.IsConsistent) (hnodup : (s.tasks.map (·.id)).Nodup)
    (htracks : s.Tracks total n k) :
    s'.Tracks total (n + created.length) (k + (m.answers x ev).toNat) := by
  cases h with
  | unchanged _ _ hother => simpa [answers_of_others hother] using htracks
  | submitted _ _ _ => exact htracks.counts.elim
  | claimed hentries _ _ =>
    exact htracks.of_tasks_eq rfl (by simp [Share.tasks, hentries])
  | timedOut hlapsed =>
    obtain ⟨t, ht, _⟩ := hlapsed
    simpa [answers_of_overdue ht] using htracks.fail hs _
  | refused haccepted hx hmem _ =>
    -- The answered task was queued, so the bound on the answers has room for one more.
    have hpos := List.length_pos_of_mem hmem
    have hanswered := htracks.answered_le
    have hroom : k + 1 ≤ n := by lia
    obtain ⟨_ | e, es⟩ := s
    · exact htracks.counts.elim
    · have hopen := hs.isFinal_eq_false rfl hmem
      rw [answers_of_accepted haccepted hx]
      exact Share.tracks_fail_of_open hopen htracks.created_le hroom _ es
  | @resumed r t e _ _ _ haccepted hx hmem _ he hopen _ hpasses =>
    have hlive : ∀ reason, e.status ≠ .failed reason := by
      simp [Expression.isFinal_eq_false_iff.mp hopen]
    have hcount := htracks.counts.add_eq_of_open he hopen
    rw [← Program.operatorCount_substitute t.id r.result] at hcount
    have hanswered := htracks.answered_eq e he hlive
    have hqueued := s.length_filter_id_ne hnodup hmem
    have hmoved : k + 1 + (s.entries.filter (·.task.id ≠ t.id)).length = n := by lia
    rw [answers_of_accepted haccepted hx]
    exact hpasses.tracks (e := e.substitute t.id r.result) hopen hcount hmoved
  | @unmentioned r t e _ _ hmem he hopen hid =>
    have hawaits := hs.awaits he hopen
    exact absurd (hawaits.tasks_perm.mem_iff.mpr (List.mem_map_of_mem hmem)) hid
  | ignored _ hmem he hfinal => exact absurd (hs.isFinal_eq_false he hmem) (by simp [hfinal])

/-- A change of an expression that was not submitted before either submits it or leaves it so. -/
theorem Change.isTracked_of_none {ev : Event} {s s' : Share} {created : List Task}
    (h : m.Change x ev s created s') (hs : s.IsConsistent) (he : s.expression = none) :
    s'.IsTracked created.length (m.answers x ev).toNat := by
  have htasks : s.tasks = [] := hs.tasks_eq_nil (by simp [he])
  have hfree {t : Task} (ht : t ∈ s.tasks) : False := by simp [htasks] at ht
  have hnone {s : Share} (he : s.expression = none) : s.IsTracked 0 0 := by
    simp [Share.IsTracked, he]
  cases h with
  | unchanged _ _ hother => simpa [answers_of_others hother] using hnone he
  | @submitted text owner p _ _ hcompile _ hpasses =>
    obtain ⟨e', he', hcontinues⟩ := hpasses.exists_continues
    have htracks := hpasses.tracks (e := ⟨x, owner, text, p, .processing⟩) (n := 0) (k := 0) rfl
      (Nat.zero_add _) rfl
    rw [Nat.zero_add] at htracks
    exact (Share.isTracked_iff he').mpr ⟨p, hcontinues.text_eq ▸ hcompile, htracks⟩
  | claimed hentries _ _ => simp [Share.tasks, hentries] at htasks
  | timedOut hlapsed =>
    obtain ⟨t, ht, _⟩ := hlapsed
    rw [answers_of_overdue ht]
    exact hnone (by simp [Share.fail, he])
  | refused _ _ hmem _ => exact (hfree hmem).elim
  | resumed _ _ hmem _ _ _ _ _ => exact (hfree hmem).elim
  | unmentioned _ hmem _ _ _ => exact (hfree hmem).elim
  | ignored _ hmem _ _ => exact (hfree hmem).elim

/-- Every change tracks the tasks that it creates and answers. -/
theorem Change.isTracked {ev : Event} {s s' : Share} {created : List Task}
    (h : m.Change x ev s created s') (hs : s.IsConsistent) (hnodup : (s.tasks.map (·.id)).Nodup)
    (htracked : s.IsTracked n k) :
    s'.IsTracked (n + created.length) (k + (m.answers x ev).toNat) := by
  cases he : s.expression with
  | none =>
    obtain ⟨rfl, rfl⟩ : n = 0 ∧ k = 0 := by simpa [Share.IsTracked, he] using htracked
    simpa using h.isTracked_of_none hs he
  | some e =>
    obtain ⟨p, hcompile, htracks⟩ := (Share.isTracked_iff he).mp htracked
    obtain ⟨e', he', hcontinues⟩ := h.exists_continues he
    exact (Share.isTracked_iff he').mpr
      ⟨p, hcontinues.text_eq ▸ hcompile, h.tracks hs hnodup htracks⟩

/-- A run tracks the tasks that it creates and answers. -/
theorem isTracked_after (hm : m.broker.IsConsistent) (htracked : (m.broker.share x).IsTracked n k)
    (es : List Event) :
    ((m.after es).broker.share x).IsTracked (n + m.createdAll x es) (k + m.answersAll x es) := by
  induction es generalizing m n k with
  | nil => exact htracked
  | cons ev es ih =>
    obtain ⟨created, hchange, _, hcreated⟩ := exists_change hm.isOrdered ev x
    have hnodup := Broker.nodup_share_tasks hm.queue x
    have hnext := ih (isConsistent_step hm ev) (hchange.isTracked (hm.shares x) hnodup htracked)
    rwa [createdAll_cons, answersAll_cons, hcreated, ← Nat.add_assoc, ← Nat.add_assoc]

/-- In every run of a new broker, for every expression and the operators of the program that its
text compiles to: as long as it has not failed, the tasks created for it and the operators left in
its program add up to them; no more tasks were ever created for it, and no more reports on its
tasks accepted; and once it is done there were exactly as many of both. -/
theorem tasks_match_operators (costs : Costs) (events : List Event) :
    let start : Moment := { broker := { costs := costs } }
    ∀ e ∈ (start.after events).broker.table.expressions, ∃ p, Infix.compile e.text = .ok p ∧
      ((∀ reason, e.status ≠ .failed reason) →
        start.createdAll e.id events + e.program.operatorCount = p.operatorCount) ∧
      start.createdAll e.id events ≤ p.operatorCount ∧
      start.answersAll e.id events ≤ p.operatorCount ∧
      ∀ v, e.status = .done v →
        start.createdAll e.id events = p.operatorCount ∧
          start.answersAll e.id events = p.operatorCount := by
  intro start e he
  have hstart : start.broker.IsConsistent := Broker.isConsistent_new costs
  have hm := isConsistent_after hstart events
  have hget : ((start.after events).broker.share e.id).expression = some e :=
    hm.table.get?_eq_some he
  have hnew : (start.broker.share e.id).IsTracked 0 0 := ⟨rfl, rfl⟩
  have htracked := isTracked_after hstart hnew events
  rw [Nat.zero_add, Nat.zero_add] at htracked
  obtain ⟨p, hcompile, htracks⟩ := (Share.isTracked_iff hget).mp htracked
  have hanswered := Nat.le_trans (Nat.le_add_right _ _) htracks.answered_le
  refine ⟨p, hcompile, htracks.counts.add_eq hget, htracks.created_le,
    Nat.le_trans hanswered htracks.created_le, fun v hdone => ?_⟩
  exact htracks.eq_of_done (hm.shares e.id) hget hdone

/-- A sum with a product in it is answered in two steps, and is done after as many tasks and reports
as it has operators. -/
theorem tasks_match_operators_of_done :
    ∃ p, Infix.compile "1+2*3" = .ok p ∧
      createdAll 1 {} [.submit "1+2*3" 7, .poll, .report ⟨1, 6, none⟩, .poll,
        .report ⟨2, 7, none⟩] = p.operatorCount ∧
      answersAll 1 {} [.submit "1+2*3" 7, .poll, .report ⟨1, 6, none⟩, .poll,
        .report ⟨2, 7, none⟩] = p.operatorCount := by
  obtain ⟨p, hcompile, _, _, _, hdone⟩ := tasks_match_operators {}
    [.submit "1+2*3" 7, .poll, .report ⟨1, 6, none⟩, .poll, .report ⟨2, 7, none⟩]
    ⟨1, 7, "1+2*3", [.number 7], .done 7⟩ (by decide +kernel)
  exact ⟨p, hcompile, hdone 7 rfl⟩

end Moment

end Piecework
