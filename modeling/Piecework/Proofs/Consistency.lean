import Piecework.Proofs.Change
import Piecework.Proofs.Infix.Output

/-!
# Programs and queued tasks

The placeholders of an open expression are exactly its queued tasks, and nothing
is queued for an expression that has finished. This is a property of each share
alone, so it is kept by every event because every listed change of a share keeps
it, whatever the reports say.
-/

namespace Piecework

/-- A program waits for exactly these tasks, and for at least one. -/
structure Program.Awaits (p : Program) (ts : List Task) : Prop where
  isPostfix : p.IsPostfix
  windowless : p.IsWindowless
  tasks_perm : p.tasks.Perm (ts.map (·.id))
  nonempty : p.tasks ≠ []

namespace Share

/-- The tasks of a share are those that its program waits for, and there are none when the
expression has finished or is not known. -/
def IsConsistent (s : Share) : Prop :=
  match s.expression with
  | none => s.tasks = []
  | some e =>
    match e.status with
    | .processing => e.program.Awaits s.tasks
    | .done v => e.program = [.number v] ∧ s.tasks = []
    | .failed _ => s.tasks = []

/-- An open expression waits for its tasks. -/
theorem IsConsistent.awaits {s : Share} (h : s.IsConsistent) {e : Expression}
    (he : s.expression = some e) (hopen : e.isFinal = false) : e.program.Awaits s.tasks := by
  have hstatus := Expression.isFinal_eq_false_iff.mp hopen
  simpa only [IsConsistent, he, hstatus] using h

/-- Only open expressions have tasks. -/
theorem IsConsistent.tasks_eq_nil {s : Share} (h : s.IsConsistent)
    (hclosed : ∀ e, s.expression = some e → e.isFinal = true) : s.tasks = [] := by
  unfold IsConsistent at h
  split at h
  · exact h
  · next e he =>
    have hfinal := hclosed e he
    split at h
    · next hstatus => simp [Expression.isFinal, Status.isFinal, hstatus] at hfinal
    · exact h.2
    · exact h

/-- An expression with a task is open. -/
theorem IsConsistent.isFinal_eq_false {s : Share} (h : s.IsConsistent) {e : Expression}
    (he : s.expression = some e) {t : Task} (ht : t ∈ s.tasks) : e.isFinal = false := by
  by_contra hfinal
  have htasks := h.tasks_eq_nil fun e' he' =>
    Option.some.inj (he.symm.trans he') ▸ Bool.of_not_eq_false hfinal
  rw [htasks] at ht
  contradiction

/-- Consistency is a matter of the expression and the tasks, not of their claims. -/
theorem IsConsistent.of_tasks_eq {s s' : Share} (h : s.IsConsistent)
    (hexpression : s'.expression = s.expression) (htasks : s'.tasks = s.tasks) :
    s'.IsConsistent := by
  unfold IsConsistent
  rw [hexpression, htasks]
  exact h

/-- An open expression that fails leaves a consistent share, whatever the share was. -/
theorem isConsistent_fail_of_open {e : Expression} (hopen : e.isFinal = false) (reason : String)
    (es : List Entry) : (Share.fail reason ⟨some e, es⟩).IsConsistent := by
  rw [fail_of_open hopen]
  rfl

/-- A share stays consistent when its expression fails and its tasks are dropped. -/
theorem IsConsistent.fail {s : Share} (h : s.IsConsistent) (reason : String) :
    (s.fail reason).IsConsistent := by
  cases he : s.expression with
  | none => simp [IsConsistent, Share.fail, he, tasks]
  | some e =>
    cases hfinal : e.isFinal with
    | true =>
      have htasks : s.tasks = [] := h.tasks_eq_nil fun e' he' => by
        rw [he] at he'
        exact Option.some.inj he' ▸ hfinal
      exact h.of_tasks_eq (fail_expression_of_isFinal he hfinal reason) htasks.symm
    | false =>
      obtain ⟨expression, es⟩ := s
      obtain rfl : expression = some e := he
      exact isConsistent_fail_of_open hfinal reason es

/-- The tasks after a pass are old ones and those that it cut out. -/
theorem Passes.mem_tasks {p : Program} {s s' : Share} {created : List Task}
    (h : Passes p s created s') {t : Task} (ht : t ∈ s'.tasks) : t ∈ s.tasks ∨ t ∈ created := by
  cases h with
  | pending _ _ _ _ => simpa [tasks, Function.comp_def] using ht
  | completed _ => exact .inl ht
  | divided _ => simp [tasks, Share.fail] at ht
  | malformed _ => simp [tasks, Share.fail] at ht

/-- What a pass leaves pending waits for the tasks from before and for those that it cut out. -/
theorem awaits_of_cuts {p q : Program} {created ts : List Task} (hlength : 2 ≤ p.length)
    (hpost : p.IsPostfix) (hcuts : Program.Cuts created p q) (hwindow : q.IsWindowless)
    (hperm : p.tasks.Perm (ts.map (·.id))) : q.Awaits (ts ++ created) := by
  have hpost' : q.IsPostfix := (hcuts.operands?_eq 0).symm.trans hpost
  refine ⟨hpost', hwindow, ?_, ?_⟩
  · rw [List.map_append]
    exact hcuts.tasks_perm.trans ((hperm.append_left _).trans List.perm_append_comm)
  · cases created with
    | nil =>
      -- Nothing was cut out, so the program has still got its several tokens.
      cases hcuts
      exact Program.tasks_ne_nil_of_isWindowless hpost' hwindow hlength
    | cons t created =>
      intro hnil
      have hempty := hcuts.tasks_perm
      rw [hnil] at hempty
      exact absurd hempty.nil_eq (by simp)

/-- A pass over the program of an open expression leaves a consistent share. -/
theorem Passes.isConsistent {e : Expression} {es : List Entry} {created : List Task} {s' : Share}
    (h : Passes e.program ⟨some e, es⟩ created s') (hopen : e.isFinal = false)
    (hperm : e.program.tasks.Perm (es.map (·.task.id))) : s'.IsConsistent := by
  have hstatus := Expression.isFinal_eq_false_iff.mp hopen
  cases h with
  | @pending _ q hlength hpost hcuts hwindow =>
    have hids : e.program.tasks.Perm ((es.map (·.task)).map (·.id)) := by
      rw [List.map_map]
      exact hperm
    have hawaits := awaits_of_cuts hlength hpost hcuts hwindow hids
    simpa [IsConsistent, Expression.advance_of_open hopen, hstatus, tasks, Function.comp_def]
      using hawaits
  | completed hp =>
    rw [hp] at hperm
    have hes : es = [] := by simpa using hperm.nil_eq.symm
    simp [IsConsistent, Expression.complete, Expression.settle_of_open hopen, hp, tasks, hes]
  | divided _ => exact isConsistent_fail_of_open hopen _ es
  | malformed _ => exact isConsistent_fail_of_open hopen _ es

end Share

namespace Moment

variable {m : Moment} {x : ExpressionId}

/-- Every change of a share keeps it consistent. -/
theorem Change.isConsistent {ev : Event} {s s' : Share} {created : List Task}
    (h : m.Change x ev s created s') (hs : s.IsConsistent) : s'.IsConsistent := by
  cases h with
  | unchanged => exact hs
  | @submitted text owner p _ _ hcompile _ hpasses =>
    refine hpasses.isConsistent (e := ⟨x, owner, text, p, .processing⟩) rfl ?_
    simp [Infix.tasks_eq_nil_of_compile hcompile]
  | claimed hentries _ _ => exact hs.of_tasks_eq rfl (by simp [Share.tasks, hentries])
  | timedOut _ => exact hs.fail _
  | refused _ _ _ _ => exact hs.fail _
  | @resumed r t e _ _ _ _ _ hmem _ he hopen hid hpasses =>
    have hawaits := hs.awaits he hopen
    apply hpasses.isConsistent (e := e.substitute t.id r.result) hopen
    have hsubstituted := Program.tasks_substitute t.id r.result e.program
    refine (List.Perm.of_eq hsubstituted).trans ((hawaits.tasks_perm.filter _).trans ?_)
    simp [Share.tasks, List.filter_map, Function.comp_def]
  | @unmentioned r t e _ _ _ _ hopen _ =>
    exact Share.isConsistent_fail_of_open (e := e.substitute t.id r.result) hopen _ []
  | ignored _ hmem he hfinal => exact absurd (hs.isFinal_eq_false he hmem) (by simp [hfinal])

/-- The tasks after a change are old ones and those that it creates. -/
theorem Change.mem_tasks {ev : Event} {s s' : Share} {created : List Task}
    (h : m.Change x ev s created s') {t : Task} (ht : t ∈ s'.tasks) :
    t ∈ s.tasks ∨ t ∈ created := by
  have hkept {es : List Entry} {P : Entry → Bool}
      (ht : t ∈ (es.filter P).map (·.task)) : t ∈ es.map (·.task) :=
    (List.filter_sublist.map _).subset ht
  cases h with
  | unchanged => exact .inl ht
  | submitted _ _ hpasses => exact hpasses.mem_tasks ht
  | claimed hentries _ _ => exact .inl (by simpa [Share.tasks, hentries] using ht)
  | timedOut _ => simp [Share.tasks, Share.fail] at ht
  | refused _ _ _ _ => simp [Share.tasks, Share.fail] at ht
  | resumed _ _ _ _ _ _ _ hpasses => exact (hpasses.mem_tasks ht).imp_left hkept
  | unmentioned _ _ _ _ _ => simp [Share.tasks, Share.fail] at ht
  | ignored _ _ _ _ => exact .inl (hkept ht)

end Moment

end Piecework
