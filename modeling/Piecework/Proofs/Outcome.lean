import Piecework.Proofs.Accounting
import Piecework.Proofs.Denotation
import Piecework.Proofs.Infix.Phrases

/-!
# How an expression ends

An expression that is served denotes from its submission on what its text
denotes, so its end is settled then: with workers that compute it is the value
of the tree that the text spells, and with any other fixed way of working it is
the same in all runs.
-/

namespace Piecework

/-! ## Answers -/

/-- The report of a worker that computes agrees with exact arithmetic. -/
theorem Task.compute_agrees (t : Task) : t.compute.Agrees Operator.apply t := by
  unfold Report.Agrees compute outcome
  cases h : t.operator.apply t.left t.right with
  | some v => rfl
  | none =>
    dsimp only
    split <;> rfl

/-- The answers of a way of working, which is never asked to divide by a known zero. -/
def Answering.ofWork (work : Operator → Int64 → Int64 → Except String Int64) : Answering :=
  fun op a b => if op = .div ∧ b = 0 then none else (work op a b).toOption

/-- A report that carries what a way of working says agrees with its answers. -/
theorem Report.Carries.agrees {work : Operator → Int64 → Int64 → Except String Int64} {t : Task}
    {r : Report} (h : r.Carries work t) (hright : t.operator = .div → t.right ≠ 0) :
    r.Agrees (.ofWork work) t := by
  have hasked : ¬ (t.operator = .div ∧ t.right = 0) := fun hzero => hright hzero.1 hzero.2
  unfold Report.Carries at h
  rw [Report.Agrees, Answering.ofWork, if_neg hasked]
  split at h
  · next v hwork =>
    obtain ⟨hfailure, rfl⟩ := h
    rw [hwork, if_pos hfailure]
    rfl
  · next reason hwork =>
    rw [hwork, h, if_neg (by simp)]
    rfl

/-- A share that denotes something has an expression, which ends accordingly. -/
theorem Share.Denotes.exists_expression {answer : Answering} {w : Option Int64} {s : Share}
    (h : s.Denotes answer w) :
    ∃ e, s.expression = some e ∧ (∀ v, e.status = .done v → w = some v) ∧
      ∀ reason, e.status = .failed reason → w = none := by
  cases he : s.expression with
  | none => simp [Denotes, he] at h
  | some e =>
    simp only [Denotes, he] at h
    refine ⟨e, rfl, fun v hv => ?_, fun reason hreason => ?_⟩
    · simpa [hv] using h
    · simpa [hreason] using h

namespace Moment

variable {m : Moment} {text : String} {owner : Nat}

/-! ## Computing workers -/

/-- Text that compiles is registered. -/
theorem exists_submitted {p : Program} (h : Infix.compile text = .ok p) (m : Moment)
    (owner : Nat) : ∃ x, (m.step (.submit text owner)).1 = .submitted x := by
  simp [step, Broker.submit, h]

/-- Text that spells a tree is accepted at any moment, and whatever else happens afterwards: if
accepted reports on tasks of its expression are those of a worker that computes, and no claim on
one of them times out, then the expression is done only with the value of the tree, fails only if
the tree has no value, and has finished as soon as none of its tasks is queued. -/
theorem outcome_is_tree_value {tree : Infix.Tree} (htext : Infix.Spells .sum tree text.toList)
    (hm : m.Reachable) (owner : Nat) :
    ∃ x, (m.step (.submit text owner)).1 = .submitted x ∧
      ∀ rest, (m.step (.submit text owner)).2.ServesAll (fun t r => r = t.compute) x rest →
        let later := (m.step (.submit text owner)).2.after rest
        ∃ e ∈ later.broker.table.expressions, e.id = x ∧
          (∀ v, e.status = .done v → tree.value? = some v) ∧
          (∀ reason, e.status = .failed reason → tree.value? = none) ∧
          ((∀ q ∈ later.broker.queue.entries, q.task.expression ≠ x) → e.isFinal = true) := by
  have hcompile := Infix.compile_of_spells htext
  obtain ⟨x, hx⟩ := exists_submitted hcompile m owner
  refine ⟨x, hx, ?_⟩
  intro rest hserves
  have hzero (a : Int64) : Operator.apply .div a 0 = none := rfl
  have hstart := denotes_submitted hm.isConsistent hzero hcompile hx
  have hnext := isConsistent_step hm.isConsistent (.submit text owner)
  have hrule (t : Task) (r : Report) (_ : t.operator = .div → t.right ≠ 0)
      (hr : r = t.compute) : r.Agrees Operator.apply t := hr ▸ t.compute_agrees
  obtain ⟨e, hget, hdone, hfailed⟩ :=
    (denotes_after hnext hzero hrule hserves hstart).exists_expression
  rw [show tree.program.valueBy? Operator.apply _ = tree.value? from
    Infix.value?_program _ tree] at hdone hfailed
  obtain ⟨he, rfl⟩ := Table.mem_of_get? hget
  exact ⟨e, he, rfl, hdone, hfailed, (isConsistent_after hnext rest).isFinal_of_no_tasks hget⟩

/-- A sum with spaces, a leading zero and a product inside, computed by one worker. -/
theorem outcome_of_spaced_sum :
    let tree : Infix.Tree := .node .add (.literal 1) (.node .mul (.literal 2) (.literal 3))
    let rest : List Event := [.poll, .report ⟨1, 6, none⟩, .poll, .report ⟨2, 7, none⟩]
    ∃ e ∈ (after {} (.submit " 01 +2*3" 0 :: rest)).broker.table.expressions,
      e.status = .done 7 ∧ tree.value? = some 7 := by
  intro tree rest
  have hone : Infix.Spells .sum (.literal 1) ([' '] ++ ['0', '1'] ++ [' ']) :=
    .product (.factor (.spaced rfl rfl (.digits rfl (by decide +kernel))))
  have hsix : Infix.Spells .product (.node .mul (.literal 2) (.literal 3))
      (['2'] ++ Operator.mul.symbol :: ['3']) :=
    .multiplied (.inl rfl) (.factor (.digits rfl (by decide +kernel)))
      (.digits rfl (by decide +kernel))
  have htext : Infix.Spells .sum tree " 01 +2*3".toList := by
    have hlist : " 01 +2*3".toList = ([' '] ++ ['0', '1'] ++ [' ']) ++ Operator.add.symbol ::
        (['2'] ++ Operator.mul.symbol :: ['3']) := by decide +kernel
    rw [hlist]
    exact .added (.inl rfl) hone hsix
  obtain ⟨x, hx, hrun⟩ := outcome_is_tree_value htext (Reachable.new {}) 0
  have hfirst : (step {} (.submit " 01 +2*3" 0)).1 = .submitted 1 := by decide +kernel
  obtain rfl : x = 1 := Reply.submitted.inj (hx.symm.trans hfirst)
  obtain ⟨e, he, _, hdone, _⟩ := hrun rest (by decide +kernel)
  have hstatus : ∀ e ∈ (after {} (.submit " 01 +2*3" 0 :: rest)).broker.table.expressions,
      e.status = .done 7 := by decide +kernel
  exact ⟨e, he, hstatus e he, hdone 7 (hstatus e he)⟩

/-! ## Any way of working -/

/-- A run from a reachable moment submits a text, serves its expression by a way of working, and
leaves it finished. -/
structure Finishes (work : Operator → Int64 → Int64 → Except String Int64) (text : String)
    (m : Moment) (owner : Nat) (rest : List Event) (e : Expression) : Prop where
  reachable : m.Reachable
  submitted : (m.step (.submit text owner)).1 = .submitted e.id
  serves : (m.step (.submit text owner)).2.ServesAll (Report.Carries work) e.id rest
  mem : e ∈ ((m.step (.submit text owner)).2.after rest).broker.table.expressions
  final : e.isFinal = true

variable {work : Operator → Int64 → Int64 → Except String Int64} {rest : List Event}
  {e : Expression} {p : Program}

/-- The moment after a run is consistent. -/
theorem Finishes.isConsistent (h : Finishes work text m owner rest e) :
    ((m.step (.submit text owner)).2.after rest).broker.IsConsistent :=
  isConsistent_after (isConsistent_step h.reachable.isConsistent _) rest

/-- The finished expression has a share of its own. -/
theorem Finishes.share_eq (h : Finishes work text m owner rest e) :
    (((m.step (.submit text owner)).2.after rest).broker.share e.id).expression = some e :=
  h.isConsistent.table.get?_eq_some h.mem

/-- A finished expression is done with a value exactly when its text has this value under the
answers of the way of working. -/
theorem Finishes.done_iff (h : Finishes work text m owner rest e)
    (hcompile : Infix.compile text = .ok p) (v : Int64) :
    e.status = .done v ↔ p.valueBy? (.ofWork work) (fun _ => none) = some v := by
  have hzero (a : Int64) : Answering.ofWork work .div a 0 = none := rfl
  have hm := h.reachable.isConsistent
  have hstart := denotes_submitted hm hzero hcompile h.submitted
  have hrule (t : Task) (r : Report) (hright : t.operator = .div → t.right ≠ 0)
      (hr : r.Carries work t) : r.Agrees (.ofWork work) t := hr.agrees hright
  obtain ⟨e', hget, hdone, hfailed⟩ :=
    (denotes_after (isConsistent_step hm _) hzero hrule h.serves hstart).exists_expression
  obtain rfl := Option.some.inj (h.share_eq.symm.trans hget)
  refine ⟨hdone v, ?_⟩
  intro hvalue
  cases hstatus : e.status with
  | processing =>
    have hfinal := h.final
    rw [Expression.isFinal, hstatus] at hfinal
    contradiction
  | done v' =>
    rw [Option.some.inj (hvalue.symm.trans (hdone v' hstatus))]
  | failed reason =>
    rw [hfailed reason hstatus] at hvalue
    contradiction

/-- A finished expression has failed exactly when it is not done. -/
theorem Finishes.failed_iff (h : Finishes work text m owner rest e) :
    (∃ reason, e.status = .failed reason) ↔ ∀ v, e.status ≠ .done v := by
  have hfinal := h.final
  unfold Expression.isFinal Status.isFinal at hfinal
  cases hstatus : e.status <;> simp_all

/-- As many tasks were created for an expression that is done as its text has operators. -/
theorem Finishes.createdAll_eq (h : Finishes work text m owner rest e)
    (hcompile : Infix.compile text = .ok p) {v : Int64} (hdone : e.status = .done v) :
    m.createdAll e.id (.submit text owner :: rest) = p.operatorCount := by
  have hm := h.reachable.isConsistent
  obtain ⟨p', created, hcompile', _, _, hpasses, hcreated, _⟩ :=
    exists_passes_of_submitted hm.isOrdered h.submitted
  obtain rfl := Except.ok.inj (hcompile.symm.trans hcompile')
  have hstart := hpasses.counts (e := ⟨e.id, owner, text, p, .processing⟩) rfl (Nat.zero_add _)
  have hcounts := counts_after (isConsistent_step hm (.submit text owner)) hstart rest
  have hsum := hcounts.add_eq h.share_eq (by simp [hdone])
  have hshare := h.isConsistent.shares e.id
  simp only [Share.IsConsistent, h.share_eq, hdone] at hshare
  rw [createdAll_cons, hcreated, ← Nat.zero_add created.length, ← hsum, hshare.1]
  rfl

/-- Two runs that submit a text, serve its expression by one way of working and finish it agree on
how it ends: it is done with the same value in both or failed in both. When it is done, both runs
created equally many tasks for it. -/
theorem outcome_independent_of_order {m' : Moment} {owner' : Nat} {rest' : List Event}
    {e' : Expression} (h : Finishes work text m owner rest e)
    (h' : Finishes work text m' owner' rest' e') :
    (∀ v, e.status = .done v ↔ e'.status = .done v) ∧
      ((∃ reason, e.status = .failed reason) ↔ ∃ reason, e'.status = .failed reason) ∧
      (∀ v, e.status = .done v →
        m.createdAll e.id (.submit text owner :: rest) =
          m'.createdAll e'.id (.submit text owner' :: rest')) := by
  obtain ⟨p, _, hcompile, _⟩ :=
    exists_passes_of_submitted h.reachable.isConsistent.isOrdered h.submitted
  have hdone (v : Int64) : e.status = .done v ↔ e'.status = .done v :=
    (h.done_iff hcompile v).trans (h'.done_iff hcompile v).symm
  refine ⟨hdone, ?_, fun v hv => ?_⟩
  · rw [h.failed_iff, h'.failed_iff]
    exact forall_congr' fun v => not_congr (hdone v)
  · rw [h.createdAll_eq hcompile hv, h'.createdAll_eq hcompile ((hdone v).mp hv)]

/-- Workers that always answer with the left operand finish a product of two sums in either order,
alone or beside another expression, and are asked three times. -/
theorem outcome_in_two_orders :
    let work : Operator → Int64 → Int64 → Except String Int64 := fun _ a _ => .ok a
    let busy : Moment := after {} [.submit "7*8" 1, .poll]
    let inOrder : List Event := [.poll, .report ⟨1, 1, none⟩, .poll, .report ⟨2, 3, none⟩, .poll,
      .report ⟨3, 1, none⟩]
    let mixed : List Event := [.poll, .poll, .report ⟨3, 3, none⟩, .report ⟨1, 56, none⟩,
      .report ⟨2, 1, none⟩, .poll, .report ⟨4, 1, none⟩]
    Finishes work "(1+2)*(3+4)" {} 0 inOrder ⟨1, 0, "(1+2)*(3+4)", [.number 1], .done 1⟩ ∧
      Finishes work "(1+2)*(3+4)" busy 5 mixed ⟨2, 5, "(1+2)*(3+4)", [.number 1], .done 1⟩ ∧
      createdAll 1 {} (.submit "(1+2)*(3+4)" 0 :: inOrder) =
        busy.createdAll 2 (.submit "(1+2)*(3+4)" 5 :: mixed) := by
  intro work busy inOrder mixed
  have hfirst : Finishes work "(1+2)*(3+4)" {} 0 inOrder
      ⟨1, 0, "(1+2)*(3+4)", [.number 1], .done 1⟩ :=
    ⟨Reachable.new {}, by decide +kernel, by decide +kernel, by decide +kernel, rfl⟩
  have hsecond : Finishes work "(1+2)*(3+4)" busy 5 mixed
      ⟨2, 5, "(1+2)*(3+4)", [.number 1], .done 1⟩ :=
    ⟨⟨{}, _, rfl⟩, by decide +kernel, by decide +kernel, by decide +kernel, rfl⟩
  exact ⟨hfirst, hsecond, (outcome_independent_of_order hfirst hsecond).2.2 1 rfl⟩

end Moment

end Piecework
