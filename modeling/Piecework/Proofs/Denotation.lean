import Piecework.Proofs.PassValue
import Piecework.Proofs.Reachable

/-!
# What an expression denotes

An expression denotes the value that its program has once every queued task is
answered. As long as accepted reports say what a way of answering says, and no
claim on a task of the expression lapses, every event keeps what it denotes, and
a finished expression has that value. The order in which the tasks are answered
does not enter.
-/

namespace Piecework

/-- Results are what a way of answering says for each task of a row. -/
def Answering.Gives (answer : Answering) (ts : List Task) (results : TaskId → Option Int64) :
    Prop :=
  ∀ t ∈ ts, results t.id = answer t.operator t.left t.right

/-- A report says about its task what a way of answering says. -/
def Report.Agrees (answer : Answering) (t : Task) (r : Report) : Prop :=
  answer t.operator t.left t.right = if r.failure = none then some r.result else none

variable {answer : Answering} {w : Option Int64}

/-- Tasks with different numbers can all be given their answers. -/
theorem Answering.exists_gives (answer : Answering) {ts : List Task}
    (hnodup : (ts.map (·.id)).Nodup) : ∃ results, answer.Gives ts results :=
  ⟨answer.put ts fun _ => none, fun _ ht => answer.put_of_mem _ hnodup ht⟩

/-- A program whose value is known under the answers to all its tasks keeps it when one answer is
substituted and only the others are looked up. -/
theorem Program.valueBy?_substitute {p : Program} {ts : List Task} {t : Task} {v : Int64}
    (hvalue : ∀ results, answer.Gives ts results → p.valueBy? answer results = w)
    (hnodup : (ts.map (·.id)).Nodup) (ht : t ∈ ts)
    (hanswer : answer t.operator t.left t.right = some v) {results : TaskId → Option Int64}
    (hresults : answer.Gives (ts.filter (·.id ≠ t.id)) results) :
    (p.substitute t.id v).valueBy? answer results = w := by
  -- Together with the substituted value the results are answers to all tasks.
  let completed : TaskId → Option Int64 := fun id => if id = t.id then some v else results id
  have hself : completed t.id = some v := if_pos rfl
  have hcompleted : answer.Gives ts completed := by
    intro u hu
    by_cases hut : u.id = t.id
    · rw [List.inj_on_of_nodup_map hnodup hu ht hut, hself, hanswer]
    · have hkept : u ∈ ts.filter (·.id ≠ t.id) := List.mem_filter.mpr ⟨hu, by simpa using hut⟩
      exact (if_neg hut).trans (hresults u hkept)
  rw [← hvalue completed hcompleted]
  apply valueBy?_eq_of_stackBy?_eq
  rw [← stackBy?_substitute hself]
  apply stackBy?_congr
  intro id hid
  rw [tasks_substitute, List.mem_filter] at hid
  have hne : id ≠ t.id := by simpa using hid.2
  exact (if_neg hne).symm

namespace Share

/-- What a share denotes: an open expression the value of its program under every assignment of
the answers to its tasks, and a finished one its result. -/
def Denotes (answer : Answering) (w : Option Int64) (s : Share) : Prop :=
  match s.expression with
  | none => False
  | some e =>
    match e.status with
    | .processing => ∀ results, answer.Gives s.tasks results → e.program.valueBy? answer results = w
    | .done v => w = some v
    | .failed _ => w = none

/-- The program of an open expression has the value that its share denotes. -/
theorem Denotes.value_eq {s : Share} (h : s.Denotes answer w) {e : Expression}
    (he : s.expression = some e) (hopen : e.isFinal = false) {results : TaskId → Option Int64}
    (hresults : answer.Gives s.tasks results) : e.program.valueBy? answer results = w := by
  have hstatus := Expression.isFinal_eq_false_iff.mp hopen
  simp only [Denotes, he, hstatus] at h
  exact h results hresults

/-- A share with a task that has no answer denotes nothing. -/
theorem Denotes.eq_none {s : Share} (h : s.Denotes answer w) (hs : s.IsConsistent)
    (hnodup : (s.tasks.map (·.id)).Nodup) {e : Expression} (he : s.expression = some e) {t : Task}
    (ht : t ∈ s.tasks) (hanswer : answer t.operator t.left t.right = none) : w = none := by
  have hopen := hs.isFinal_eq_false he ht
  obtain ⟨results, hresults⟩ := answer.exists_gives hnodup
  have hid : t.id ∈ e.program.tasks :=
    (hs.awaits he hopen).tasks_perm.mem_iff.mpr (List.mem_map_of_mem ht)
  rw [← h.value_eq he hopen hresults]
  apply Program.valueBy?_eq_none_of_stackBy?
  exact Program.stackBy?_eq_none_of_task hid ((hresults t ht).trans hanswer) []

/-- What a share denotes depends on the expression and the tasks, not on their claims. -/
theorem Denotes.of_tasks_eq {s s' : Share} (h : s.Denotes answer w)
    (hexpression : s'.expression = s.expression) (htasks : s'.tasks = s.tasks) :
    s'.Denotes answer w := by
  unfold Denotes
  rw [hexpression, htasks]
  exact h

/-- An open expression that fails denotes nothing. -/
theorem denotes_fail_of_open {e : Expression} (hopen : e.isFinal = false) (reason : String)
    (es : List Entry) (hw : w = none) : (Share.fail reason ⟨some e, es⟩).Denotes answer w := by
  rw [fail_of_open hopen]
  exact hw

/-- A pass keeps what the program of an open expression denotes. -/
theorem Passes.denotes {e : Expression} {es : List Entry} {created : List Task} {s' : Share}
    (h : Passes e.program ⟨some e, es⟩ created s') (hopen : e.isFinal = false)
    (hnotask : ∀ id, e.program ≠ [.task id]) (hzero : ∀ a, answer .div a 0 = none)
    (hnodup : ((es.map (·.task) ++ created).map (·.id)).Nodup)
    (hvalue : ∀ results, answer.Gives (es.map (·.task)) results →
      e.program.valueBy? answer results = w) : s'.Denotes answer w := by
  -- Where the pass ends the expression, one assignment for all tasks shows what `w` is.
  obtain ⟨results, hresults⟩ := answer.exists_gives hnodup
  have hold : e.program.valueBy? answer results = w :=
    hvalue results fun t ht => hresults t (List.mem_append_left _ ht)
  cases h with
  | @pending _ q _ _ hcuts _ =>
    have hstatus := Expression.isFinal_eq_false_iff.mp hopen
    have hcut (results' : TaskId → Option Int64)
        (h' : answer.Gives (es.map (·.task) ++ created) results') :
        q.valueBy? answer results' = w := by
      rw [← hvalue results' fun t ht => h' t (List.mem_append_left _ ht)]
      refine Program.valueBy?_eq_of_stackBy?_eq (Eq.symm ?_)
      exact hcuts.stackBy?_eq (fun t ht => h' t (List.mem_append_right _ ht)) []
    simpa [Denotes, Expression.advance_of_open hopen, hstatus, tasks, Function.comp_def] using hcut
  | @completed v hp =>
    rw [hp] at hold
    simp [Denotes, Expression.complete, Expression.settle_of_open hopen, ← hold, Program.valueBy?,
      Program.stackBy?]
  | divided hcuts =>
    refine denotes_fail_of_open hopen _ es (hold.symm.trans ?_)
    refine Program.valueBy?_eq_none_of_stackBy? ?_
    rw [hcuts.stackBy?_eq fun t ht => hresults t (List.mem_append_right _ ht)]
    exact Program.stackBy?_eq_none_of_division hzero [] _ _ _
  | malformed hbad =>
    refine denotes_fail_of_open hopen _ es (hold.symm.trans ?_)
    rcases hbad with hpost | ⟨id, hp⟩
    · cases hvalue' : e.program.valueBy? answer results with
      | none => rfl
      | some v => exact absurd (Program.isPostfix_of_valueBy? hvalue') hpost
    · exact absurd hp (hnotask id)

end Share

namespace Moment

variable {m : Moment} {x : ExpressionId} {rule : Task → Report → Prop}

/-- A change under a rule that reports agree with keeps what a share denotes. -/
theorem Change.denotes {ev : Event} {s s' : Share} {created : List Task}
    (h : m.Change x ev s created s') (hs : s.IsConsistent) (hdenotes : s.Denotes answer w)
    (hzero : ∀ a, answer .div a 0 = none) (hserves : m.Serves rule x ev)
    (hrule : ∀ t ∈ s.tasks, ∀ r, rule t r → r.Agrees answer t)
    (hnodup : ((s.tasks ++ created).map (·.id)).Nodup) : s'.Denotes answer w := by
  have holdnodup : (s.tasks.map (·.id)).Nodup := by
    rw [List.map_append] at hnodup
    exact (List.nodup_append.mp hnodup).1
  cases h with
  | unchanged => exact hdenotes
  | submitted _ _ _ => exact hdenotes.elim
  | claimed hentries _ _ => exact hdenotes.of_tasks_eq rfl (by simp [Share.tasks, hentries])
  | timedOut hoverdue =>
    obtain ⟨t, ht, hx⟩ := hoverdue
    exact absurd hx (hserves.2 t ht)
  | @refused r reason t _ haccepted hx hmem hfailure =>
    have hagrees := hrule t hmem r (hserves.1 (t, r) haccepted hx)
    rw [Report.Agrees, hfailure, if_neg (by simp)] at hagrees
    obtain ⟨expression, es⟩ := s
    cases expression with
    | none => exact hdenotes.elim
    | some e =>
      have hnone := hdenotes.eq_none hs holdnodup rfl hmem hagrees
      exact Share.denotes_fail_of_open (hs.isFinal_eq_false rfl hmem) _ es hnone
  | @resumed r t e _ _ _ haccepted hx hmem hfailure he hopen hid hpasses =>
    have hagrees := hrule t hmem r (hserves.1 (t, r) haccepted hx)
    rw [Report.Agrees, hfailure, if_pos rfl] at hagrees
    have hrest := Share.map_task_filter s.entries t.id
    refine hpasses.denotes (e := e.substitute t.id r.result) hopen
      (Program.substitute_ne_task hid r.result) hzero ?_ ?_
    · rw [hrest]
      exact hnodup.sublist ((List.filter_sublist.append_right created).map _)
    · rw [hrest]
      intro results hresults
      exact Program.valueBy?_substitute (fun _ h => hdenotes.value_eq he hopen h) holdnodup hmem
        hagrees hresults
  | @unmentioned r t e _ _ hmem he hopen hid =>
    have hawaits := hs.awaits he hopen
    exact absurd (hawaits.tasks_perm.mem_iff.mpr (List.mem_map_of_mem hmem)) hid
  | ignored _ hmem he hfinal => exact absurd (hs.isFinal_eq_false he hmem) (by simp [hfinal])

/-! ## Runs -/

/-- The numbers of new tasks differ from each other and from those in the queue. -/
theorem nodup_tasks_append {b : Broker} (hq : b.queue.IsOrdered) {created : List Task}
    (hissued : Task.Issued b.costs x b.queue.lastId created) :
    (((b.share x).tasks ++ created).map (·.id)).Nodup := by
  rw [List.map_append, List.nodup_append]
  refine ⟨Broker.nodup_share_tasks hq x, hissued.nodup, ?_⟩
  intro id hold id' hnew
  obtain ⟨t, ht, rfl⟩ := List.mem_map.mp hold
  obtain ⟨t', ht', rfl⟩ := List.mem_map.mp hnew
  obtain ⟨q, hqueued, rfl, _⟩ := Broker.mem_tasks_share_iff.mp ht
  exact Nat.ne_of_lt (Nat.lt_of_le_of_lt (hq.issued q hqueued) (hissued.lt_id ht'))

/-- A run that serves an expression keeps what the expression denotes. -/
theorem denotes_after (hm : m.broker.IsConsistent) (hzero : ∀ a, answer .div a 0 = none)
    (hrule : ∀ t r, (t.operator = .div → t.right ≠ 0) → rule t r → r.Agrees answer t)
    {es : List Event} (hserves : m.ServesAll rule x es)
    (hdenotes : (m.broker.share x).Denotes answer w) :
    ((m.after es).broker.share x).Denotes answer w := by
  induction es generalizing m with
  | nil => exact hdenotes
  | cons ev es ih =>
    obtain ⟨hfirst, hrest⟩ := List.forall_mem_cons.mp hserves
    obtain ⟨created, hchange, hissued, _⟩ := exists_change hm.isOrdered ev x
    apply ih (isConsistent_step hm ev) hrest
    exact hchange.denotes (hm.shares x) hdenotes hzero hfirst
      (fun t ht r => hrule t r (hm.right_ne_zero x t ht)) (nodup_tasks_append hm.queue hissued)

/-- A submitted expression denotes the value of the program that its text compiles to. -/
theorem denotes_submitted (hm : m.broker.IsConsistent) (hzero : ∀ a, answer .div a 0 = none)
    {text : String} {owner : Nat} {p : Program} (hcompile : Infix.compile text = .ok p)
    (h : (m.step (.submit text owner)).1 = .submitted x) :
    ((m.step (.submit text owner)).2.broker.share x).Denotes answer
      (p.valueBy? answer fun _ => none) := by
  obtain ⟨p', created, hcompile', _, hissued, hpasses, _⟩ :=
    exists_passes_of_submitted hm.isOrdered h
  obtain rfl := Except.ok.inj (hcompile.symm.trans hcompile')
  have hfree := Infix.tasks_eq_nil_of_compile hcompile
  refine hpasses.denotes (e := ⟨x, owner, text, p, .processing⟩) rfl (fun id hp => ?_) hzero
    (by simpa using hissued.nodup) fun results _ => ?_
  · rw [show p = [.task id] from hp] at hfree
    contradiction
  · refine Program.valueBy?_eq_of_stackBy?_eq (Program.stackBy?_congr (fun id hid => ?_) [])
    rw [show Program.tasks p = [] from hfree] at hid
    contradiction

end Moment

end Piecework
