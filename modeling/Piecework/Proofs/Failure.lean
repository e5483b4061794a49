import Piecework.Proofs.Acceptance
import Piecework.Proofs.Infix.Subtrees
import Piecework.Proofs.Outcome

/-!
# Why an expression fails

As long as workers compute what they are asked and no claim times out, the program of an open
expression pictures the tree of its text. A known divisor that is zero is found by a pass, a result
that does not fit by the worker of a task, and both at a node of the tree, in whatever order the
reports come. No queued task ever divides by zero, whatever is reported.
-/

namespace Piecework

open Infix (Tree)

/-! ## Operations without a result -/

/-- An integer that a signed 64-bit number cannot hold. -/
def IsTooLarge (i : Int) : Prop := i < Int64.minValue.toInt ∨ Int64.maxValue.toInt < i

theorem signed?_eq_none_iff {i : Int} : signed? i = none ↔ IsTooLarge i := by
  simp only [signed?, IsTooLarge, ite_eq_right_iff, reduceCtorEq, imp_false, not_and_or, Int.not_le]

/-- The exact result of an operation, with quotients cut off towards zero. -/
def Operator.exact : Operator → Int → Int → Int
  | add, a, b => a + b
  | sub, a, b => a - b
  | mul, a, b => a * b
  | div, a, b => a.tdiv b

/-- An operation has the exact result, if that fits and no divisor is zero. -/
theorem Operator.apply_eq (op : Operator) (a b : Int64) :
    op.apply a b = if op = .div ∧ b = 0 then none else signed? (op.exact a.toInt b.toInt) := by
  cases op <;> simp [apply, exact]

namespace Infix.Tree

/-- Some quotient in the tree has operands with values, and the divisor is zero. -/
def DividesByZero (tree : Tree) : Prop := ∃ a, tree.HasNode .div a 0

/-- Some operation in the tree has operands with values, and an exact result that does not fit. -/
def Overflows (tree : Tree) : Prop :=
  ∃ op a b, tree.HasNode op a b ∧ IsTooLarge (op.exact a.toInt b.toInt)

/-- A reason to fail that is found in the tree. -/
def FailsFor (tree : Tree) (reason : String) : Prop :=
  reason = "division by zero" ∧ tree.DividesByZero ∨ reason = "overflow" ∧ tree.Overflows

end Infix.Tree

/-- A worker that computes a node of a tree refuses it for a reason found in the tree. -/
theorem Task.failsFor_of_compute {t : Task} {tree : Tree} {reason : String}
    (hnode : tree.HasNode t.operator t.left t.right) (h : t.compute.failure = some reason) :
    tree.FailsFor reason := by
  obtain ⟨herror, _⟩ := Report.failure_eq_some_iff.mp h
  unfold compute outcome at herror
  rw [Operator.apply_eq] at herror
  by_cases hzero : t.operator = .div ∧ t.right = 0
  · rw [if_pos hzero, if_pos hzero] at herror
    obtain ⟨hdiv, hright⟩ := hzero
    rw [hdiv, hright] at hnode
    exact .inl ⟨(Option.some.inj herror).symm, t.left, hnode⟩
  · rw [if_neg hzero, if_neg hzero] at herror
    cases hexact : signed? (t.operator.exact t.left.toInt t.right.toInt) with
    | some v => simp [hexact] at herror
    | none =>
      rw [hexact] at herror
      exact .inr ⟨(Option.some.inj herror).symm, t.operator, t.left, t.right, hnode,
        signed?_eq_none_iff.mp hexact⟩

namespace Share

variable {tree : Tree}

/-- The program of an open expression pictures a tree, with the tasks of the share for its
placeholders, and an expression that has failed did so for a reason found in the tree. -/
def Pictures (tree : Tree) (s : Share) : Prop :=
  match s.expression with
  | none => False
  | some e =>
    match e.status with
    | .processing => Program.Assembles s.tasks [] e.program [tree]
    | .done _ => True
    | .failed reason => tree.FailsFor reason

/-- The program of an open expression pictures the tree of its share. -/
theorem Pictures.assembles {s : Share} (h : s.Pictures tree) {e : Expression}
    (he : s.expression = some e) (hopen : e.isFinal = false) :
    Program.Assembles s.tasks [] e.program [tree] := by
  have hstatus := Expression.isFinal_eq_false_iff.mp hopen
  simpa only [Pictures, he, hstatus] using h

/-- A share that pictures a tree has an expression, which fails accordingly. -/
theorem Pictures.exists_expression {s : Share} (h : s.Pictures tree) :
    ∃ e, s.expression = some e ∧ ∀ reason, e.status = .failed reason → tree.FailsFor reason := by
  cases he : s.expression with
  | none => simp [Pictures, he] at h
  | some e =>
    refine ⟨e, rfl, fun reason hreason => ?_⟩
    simpa only [Pictures, he, hreason] using h

/-- The queued tasks of an expression are nodes of the tree that its share pictures. -/
theorem Pictures.hasNode {s : Share} (h : s.Pictures tree) (hs : s.IsConsistent)
    (hnodup : (s.tasks.map (·.id)).Nodup) {e : Expression} (he : s.expression = some e) {t : Task}
    (ht : t ∈ s.tasks) : tree.HasNode t.operator t.left t.right := by
  have hopen := hs.isFinal_eq_false he ht
  have hid : t.id ∈ e.program.tasks :=
    (hs.awaits he hopen).tasks_perm.mem_iff.mpr (List.mem_map_of_mem ht)
  obtain ⟨u, hu, hsame, hnode⟩ := (h.assembles he hopen).exists_hasNode_of_task hid
  obtain rfl := List.inj_on_of_nodup_map hnodup hu ht hsame
  exact hnode

/-- The picture depends on the expression and the tasks, not on their claims. -/
theorem Pictures.of_tasks_eq {s s' : Share} (h : s.Pictures tree)
    (hexpression : s'.expression = s.expression) (htasks : s'.tasks = s.tasks) :
    s'.Pictures tree := by
  unfold Pictures
  rw [hexpression, htasks]
  exact h

/-- An open expression may fail for a reason found in the tree. -/
theorem pictures_fail_of_open {e : Expression} (hopen : e.isFinal = false) {reason : String}
    (hreason : tree.FailsFor reason) (es : List Entry) :
    (Share.fail reason ⟨some e, es⟩).Pictures tree := by
  rw [fail_of_open hopen]
  exact hreason

/-- A pass keeps the picture of an open expression, or divides by zero at a node of it. -/
theorem Passes.pictures {e : Expression} {es : List Entry} {created : List Task} {s' : Share}
    (h : Passes e.program ⟨some e, es⟩ created s') (hopen : e.isFinal = false)
    (hnotask : ∀ id, e.program ≠ [.task id])
    (hpicture : Program.Assembles (es.map (·.task)) [] e.program [tree]) : s'.Pictures tree := by
  have hall := hpicture.mono (List.subset_append_left _ created)
  cases h with
  | pending _ _ hcuts _ =>
    have hstatus := Expression.isFinal_eq_false_iff.mp hopen
    have hcut := hall.cuts hcuts (List.subset_append_right _ _)
    simpa [Pictures, Expression.advance_of_open hopen, hstatus, tasks, Function.comp_def] using hcut
  | completed _ => simp [Pictures, Expression.complete, Expression.settle_of_open hopen]
  | divided hcuts =>
    have hwindow := (hall.cuts hcuts (List.subset_append_right _ _)).hasNode_of_window
    exact pictures_fail_of_open hopen (.inl ⟨rfl, _, hwindow⟩) es
  | malformed hbad _ =>
    rcases hbad with hpost | ⟨id, hp⟩
    · exact absurd hpicture.isPostfix hpost
    · exact absurd hp (hnotask id)

end Share

namespace Moment

variable {m : Moment} {x : ExpressionId} {tree : Tree}

/-- A change that serves an expression with computed reports keeps the picture. -/
theorem Change.pictures {ev : Event} {s s' : Share} {created : List Task}
    (h : m.Change x ev s created s') (hs : s.IsConsistent) (hpicture : s.Pictures tree)
    (hnodup : (s.tasks.map (·.id)).Nodup)
    (hserves : m.Serves (fun t r => r = t.compute) x ev) : s'.Pictures tree := by
  cases h with
  | unchanged => exact hpicture
  | submitted _ _ _ => exact hpicture.elim
  | claimed hentries _ _ => exact hpicture.of_tasks_eq rfl (by simp [Share.tasks, hentries])
  | timedOut hoverdue =>
    obtain ⟨t, ht, hx⟩ := hoverdue
    exact absurd hx (hserves.2 t ht)
  | @refused r reason t _ haccepted hx hmem hfailure =>
    obtain rfl : r = t.compute := hserves.1 (t, r) haccepted hx
    obtain ⟨expression, es⟩ := s
    cases expression with
    | none => exact hpicture.elim
    | some e =>
      have hreason := Task.failsFor_of_compute (hpicture.hasNode hs hnodup rfl hmem) hfailure
      exact Share.pictures_fail_of_open (hs.isFinal_eq_false rfl hmem) hreason es
  | @resumed r t e _ _ _ haccepted hx hmem hfailure he hopen hid hpasses =>
    obtain rfl : r = t.compute := hserves.1 (t, r) haccepted hx
    have hresult : t.operator.apply t.left t.right = some t.compute.result := by
      have hagrees := t.compute_agrees
      rwa [Report.Agrees, if_pos hfailure] at hagrees
    refine hpasses.pictures (e := e.substitute t.id t.compute.result) hopen
      (Program.substitute_ne_task hid t.compute.result) ?_
    rw [Share.map_task_filter]
    exact (hpicture.assembles he hopen).substitute hnodup hmem hresult
  | @unmentioned r t e _ _ hmem he hopen hid =>
    have hawaits := hs.awaits he hopen
    exact absurd (hawaits.tasks_perm.mem_iff.mpr (List.mem_map_of_mem hmem)) hid
  | ignored _ hmem he hfinal => exact absurd (hs.isFinal_eq_false he hmem) (by simp [hfinal])

/-- A run that serves an expression with computed reports keeps the picture. -/
theorem pictures_after (hm : m.broker.IsConsistent) {es : List Event}
    (hserves : m.ServesAll (fun t r => r = t.compute) x es)
    (hpicture : (m.broker.share x).Pictures tree) :
    ((m.after es).broker.share x).Pictures tree := by
  induction es generalizing m with
  | nil => exact hpicture
  | cons ev es ih =>
    obtain ⟨hfirst, hrest⟩ := List.forall_mem_cons.mp hserves
    obtain ⟨_, hchange, _⟩ := exists_change hm.isOrdered ev x
    exact ih (isConsistent_step hm ev) hrest
      (hchange.pictures (hm.shares x) hpicture (Broker.nodup_share_tasks hm.queue x) hfirst)

/-- A submitted expression pictures the tree that its text compiles to. -/
theorem pictures_submitted (hm : m.broker.IsConsistent) {text : String} {owner : Nat}
    (hcompile : Infix.compile text = .ok tree.program)
    (h : (m.step (.submit text owner)).1 = .submitted x) :
    ((m.step (.submit text owner)).2.broker.share x).Pictures tree := by
  obtain ⟨p, created, hcompile', _, _, hpasses, _⟩ := exists_passes_of_submitted hm.isOrdered h
  obtain rfl := Except.ok.inj (hcompile.symm.trans hcompile')
  have hpicture : Program.Assembles [] [] (tree.program ++ []) [tree] :=
    Program.Assembles.program_append (.nil [tree])
  rw [List.append_nil] at hpicture
  refine hpasses.pictures (e := ⟨x, owner, text, tree.program, .processing⟩) rfl
    (fun id hp => ?_) hpicture
  have hfree := Infix.tasks_eq_nil_of_compile hcompile
  rw [show tree.program = [.task id] from hp] at hfree
  contradiction

/-- In every reachable moment no queued task divides by zero, whatever was reported. Text that
spells a tree is accepted, and whatever else happens afterwards: if accepted reports on tasks of its
expression are those of a worker that computes, and no claim on one of them times out, then the
expression fails with `division by zero` only if some quotient in the tree has operands with values
and the divisor zero, with `overflow` only if some operation in the tree has operands with values
and an exact result that does not fit, and for no other reason. -/
theorem Reachable.failures_found_in_tree (hm : m.Reachable) :
    (∀ q ∈ m.broker.queue.entries, q.task.operator = .div → q.task.right ≠ 0) ∧
      ∀ (tree : Tree) (text : String) (owner : Nat), Infix.Spells .sum tree text.toList →
        ∃ x, (m.step (.submit text owner)).1 = .submitted x ∧
          ∀ rest, (m.step (.submit text owner)).2.ServesAll (fun t r => r = t.compute) x rest →
            let later := (m.step (.submit text owner)).2.after rest
            ∀ e ∈ later.broker.table.expressions, e.id = x →
              ∀ reason, e.status = .failed reason →
                reason = "division by zero" ∧ tree.DividesByZero ∨
                  reason = "overflow" ∧ tree.Overflows := by
  have hconsistent := hm.isConsistent
  refine ⟨fun q hq => ?_, fun tree text owner htext => ?_⟩
  · exact hconsistent.right_ne_zero _ q.task (Broker.mem_tasks_share_iff.mpr ⟨q, hq, rfl, rfl⟩)
  · have hcompile := Infix.compile_of_spells htext
    obtain ⟨x, hx⟩ := exists_submitted hcompile m owner
    refine ⟨x, hx, fun rest hserves e he hid => ?_⟩
    have hnext := isConsistent_step hconsistent (.submit text owner)
    have hpicture := pictures_after hnext hserves (pictures_submitted hconsistent hcompile hx)
    obtain ⟨e', hget, hfails⟩ := hpicture.exists_expression
    have hsame := (isConsistent_after hnext rest).table.get?_eq_some he
    obtain rfl : e = e' := Option.some.inj (hsame.symm.trans (hid ▸ hget))
    exact hfails

/-- A product that does not fit, beside a quotient by a difference that is zero: the expression
fails for either reason, depending on which task is reported first. -/
theorem failures_found_in_either_order :
    let tree : Tree := .node .add (.node .mul (.literal 9223372036854775807) (.literal 2))
      (.node .div (.literal 7) (.node .sub (.literal 2) (.literal 2)))
    let text : String := "9223372036854775807*2+7/(2-2)"
    let reasons (rest : List Event) : List Status :=
      (after {} (.submit text 0 :: rest)).broker.table.expressions.map (·.status)
    reasons [.poll, .poll, .report ⟨2, 0, none⟩] = [.failed "division by zero"] ∧
      tree.DividesByZero ∧
      reasons [.poll, .report ⟨1, 0, some "overflow"⟩] = [.failed "overflow"] ∧ tree.Overflows := by
  intro tree text reasons
  have hproduct : Infix.Spells .product (.node .mul (.literal 9223372036854775807) (.literal 2))
      ("9223372036854775807".toList ++ Operator.mul.symbol :: ['2']) :=
    .multiplied (.inl rfl) (.factor (.digits (by decide +kernel) (by decide +kernel)))
      (.digits rfl (by decide +kernel))
  have hdifference : Infix.Spells .sum (.node .sub (.literal 2) (.literal 2))
      (['2'] ++ Operator.sub.symbol :: ['2']) :=
    .added (.inr rfl) (.product (.factor (.digits rfl (by decide +kernel))))
      (.factor (.digits rfl (by decide +kernel)))
  have htext : Infix.Spells .sum tree text.toList := by
    have hlist : text.toList = ("9223372036854775807".toList ++ Operator.mul.symbol :: ['2']) ++
        Operator.add.symbol :: (['7'] ++ Operator.div.symbol ::
          ('(' :: (['2'] ++ Operator.sub.symbol :: ['2']) ++ [')'])) := by decide +kernel
    rw [hlist]
    exact .added (.inl rfl) (.product hproduct)
      (.multiplied (.inr rfl) (.factor (.digits rfl (by decide +kernel)))
        (.parentheses hdifference))
  obtain ⟨x, hx, hrun⟩ := (Reachable.new {}).failures_found_in_tree.2 tree text 0 htext
  have hfirst : (step {} (.submit text 0)).1 = .submitted 1 := by decide +kernel
  obtain rfl : x = 1 := Reply.submitted.inj (hx.symm.trans hfirst)
  have found (rest : List Event) (reason : String)
      (hserves : (step {} (.submit text 0)).2.ServesAll (fun t r => r = t.compute) 1 rest)
      (hrow : ∃ e ∈ ((step {} (.submit text 0)).2.after rest).broker.table.expressions,
        e.id = 1 ∧ e.status = .failed reason) :
      reason = "division by zero" ∧ tree.DividesByZero ∨ reason = "overflow" ∧ tree.Overflows := by
    obtain ⟨e, he, hid, hstatus⟩ := hrow
    exact hrun rest hserves e he hid reason hstatus
  have hzero := found [.poll, .poll, .report ⟨2, 0, none⟩] "division by zero"
    (by decide +kernel) (by decide +kernel)
  have hlarge := found [.poll, .report ⟨1, 0, some "overflow"⟩] "overflow"
    (by decide +kernel) (by decide +kernel)
  exact ⟨by decide +kernel, by simpa using hzero, by decide +kernel, by simpa using hlarge⟩

end Moment

end Piecework
