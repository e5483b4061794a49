import Piecework.Broker.Run
import Piecework.Proofs.QueueRun
import Piecework.Proofs.Table

/-!
# The share of an expression

Seen from one expression, a broker is its entry in the table and its entries in
the queue. Every operation of the broker either leaves this share alone, fails
it, or runs a pass over its program, and an operation on one expression does not
touch the share of another.
-/

namespace Piecework

/-- What a broker holds of one expression: its entry in the table and its queued tasks. -/
structure Share where
  expression : Option Expression
  entries : List Entry

namespace Share

/-- The tasks of a share, whether claimed or not. -/
def tasks (s : Share) : List Task := s.entries.map (·.task)

/-- Dropping a number from entries drops it from their tasks. -/
theorem map_task_filter (es : List Entry) (id : TaskId) :
    (es.filter (·.task.id ≠ id)).map (·.task) = (es.map (·.task)).filter (·.id ≠ id) := by
  rw [List.filter_map]
  rfl

/-- The share after the expression has failed and its tasks were dropped. -/
def fail (reason : String) (s : Share) : Share := ⟨s.expression.map (·.fail reason), []⟩

/-- A finished expression stays as it is when its share fails. -/
theorem fail_expression_of_isFinal {s : Share} {e : Expression} (he : s.expression = some e)
    (hfinal : e.isFinal = true) (reason : String) :
    (s.fail reason).expression = s.expression := by
  rw [fail, he, Option.map_some, Expression.fail, Expression.settle_of_isFinal hfinal]

/-- An open expression takes the reason when its share fails. -/
theorem fail_of_open {e : Expression} (hopen : e.isFinal = false) (reason : String)
    (es : List Entry) :
    fail reason ⟨some e, es⟩ = ⟨some { e with status := .failed reason }, []⟩ := by
  rw [fail, Option.map_some, Expression.fail, Expression.settle_of_open hopen]

/-- Only the first failure counts. -/
theorem fail_fail (reason reason' : String) (s : Share) :
    (s.fail reason).fail reason' = s.fail reason := by
  obtain ⟨_ | e, es⟩ := s
  · rfl
  · have hfinal := e.isFinal_fail reason
    exact congrArg (Share.mk · []) (fail_expression_of_isFinal (s := ⟨_, []⟩) rfl hfinal reason')

/-- What a pass over a program makes of a share, with the tasks that it cut out. -/
inductive Passes (p : Program) (s : Share) : List Task → Share → Prop where
  | pending {created : List Task} {q : Program} : 2 ≤ p.length → p.IsPostfix →
      Program.Cuts created p q → q.IsWindowless →
      Passes p s created
        ⟨s.expression.map (·.advance q), s.entries ++ created.map (⟨·, none⟩)⟩
  | completed {v : Int64} : p = [.number v] →
      Passes p s [] ⟨s.expression.map (·.complete v), s.entries⟩
  | divided {created : List Task} {before behind : Program} {a : Int64} :
      Program.Cuts created p (before ++ .number a :: .number 0 :: .operator .div :: behind) →
      Passes p s created (s.fail ProgramError.divisionByZero.message)
  | malformed {created : List Task} {q : Program} :
      ¬ p.IsPostfix ∨ (∃ id, p = [.task id]) → Program.Cuts created p q →
      Passes p s created (s.fail ProgramError.malformed.message)

end Share

namespace Broker

/-- The share of an expression in a broker. -/
def share (x : ExpressionId) (b : Broker) : Share :=
  ⟨b.table.get? x, b.queue.entries.filter (·.task.expression = x)⟩

/-- Shares depend on the table and the queue only. -/
theorem share_congr {b b' : Broker} {x : ExpressionId}
    (htable : b'.table.get? x = b.table.get? x)
    (hqueue : b'.queue.entries.filter (·.task.expression = x) =
      b.queue.entries.filter (·.task.expression = x)) :
    b'.share x = b.share x := by
  unfold share
  rw [htable, hqueue]

@[simp] theorem share_noteExpression (event : ExpressionEvent) (b : Broker) (x : ExpressionId) :
    (b.noteExpression event).share x = b.share x := rfl

@[simp] theorem share_noteTasks (event : TaskEvent) (n : Nat) (b : Broker) (x : ExpressionId) :
    (b.noteTasks event n).share x = b.share x := rfl

@[simp] theorem share_gauge (b : Broker) (x : ExpressionId) : b.gauge.share x = b.share x := rfl

/-- The tasks of a share are the queued tasks of the expression. -/
theorem mem_tasks_share_iff {b : Broker} {x : ExpressionId} {t : Task} :
    t ∈ (b.share x).tasks ↔ ∃ q ∈ b.queue.entries, q.task = t ∧ t.expression = x := by
  simp only [Share.tasks, Broker.share, List.mem_map, List.mem_filter, decide_eq_true_eq]
  constructor
  · rintro ⟨q, ⟨hq, hx⟩, rfl⟩
    exact ⟨q, hq, rfl, hx⟩
  · rintro ⟨q, hq, rfl, hx⟩
    exact ⟨q, ⟨hq, hx⟩, rfl⟩

/-- The tasks of a share have different numbers. -/
theorem nodup_share_tasks {b : Broker} (hq : b.queue.IsOrdered) (x : ExpressionId) :
    ((b.share x).tasks.map (·.id)).Nodup := by
  rw [Share.tasks, List.map_map]
  exact hq.nodup.sublist (List.filter_sublist.map _)

/-! ## Finishing an expression -/

/-- An expression is open when it is in the table and has not finished. -/
theorem isOpen_iff {b : Broker} {x : ExpressionId} :
    b.isOpen x = true ↔ ∃ e, b.table.get? x = some e ∧ e.isFinal = false := by
  simp [isOpen, Option.any_eq_true]

/-- Settling an expression only while it is open is settling it. -/
theorem get?_settle_of_isOpen (b : Broker) (x y : ExpressionId) (s : Status) :
    (if b.isOpen x then b.table.modify x (·.settle s) else b.table).get? y =
      (b.table.get? y).map fun e => if y = x then e.settle s else e := by
  split
  · exact Table.get?_modify _ _ _ (by simp)
  · next hclosed =>
    cases hfind : b.table.get? y with
    | none => rfl
    | some e =>
      by_cases hy : y = x
      · have hfinal : e.isFinal = true := by
          by_contra hopen
          exact hclosed (isOpen_iff.mpr ⟨e, hy ▸ hfind, by simpa using hopen⟩)
        simp [hy, Expression.settle_of_isFinal hfinal]
      · simp [hy]

theorem finish_table (x : ExpressionId) (v : Int64) (b : Broker) :
    (b.finish x v).table = if b.isOpen x then b.table.modify x (·.complete v) else b.table := by
  unfold finish
  split <;> rfl

@[simp] theorem finish_queue (x : ExpressionId) (v : Int64) (b : Broker) :
    (b.finish x v).queue = b.queue := by
  unfold finish
  split <;> rfl

theorem abandon_table (x : ExpressionId) (reason : String) (b : Broker) :
    (b.abandon x reason).table =
      if b.isOpen x then b.table.modify x (·.fail reason) else b.table := by
  unfold abandon
  split <;> rfl

@[simp] theorem abandon_queue (x : ExpressionId) (reason : String) (b : Broker) :
    (b.abandon x reason).queue = (b.queue.discard x).2 := by
  unfold abandon
  split <;> rfl

/-- Finishing an expression completes its share. -/
theorem share_finish_self (x : ExpressionId) (v : Int64) (b : Broker) :
    (b.finish x v).share x = ⟨(b.share x).expression.map (·.complete v), (b.share x).entries⟩ := by
  simp only [share, finish_queue, finish_table]
  rw [show (fun e : Expression => e.complete v) = (·.settle (.done v)) from rfl,
    get?_settle_of_isOpen]
  simp

/-- Finishing an expression leaves the shares of the others. -/
theorem share_finish_of_ne {x y : ExpressionId} (hne : y ≠ x) (v : Int64) (b : Broker) :
    (b.finish x v).share y = b.share y := by
  refine share_congr ?_ (by rw [finish_queue])
  rw [finish_table, show (fun e : Expression => e.complete v) = (·.settle (.done v)) from rfl,
    get?_settle_of_isOpen]
  simp [hne]

/-- Abandoning an expression fails its share and leaves the shares of the others. -/
theorem share_abandon {b : Broker} (hq : b.queue.IsOrdered) (x y : ExpressionId)
    (reason : String) :
    (b.abandon x reason).share y = if y = x then (b.share y).fail reason else b.share y := by
  have hget : (b.abandon x reason).table.get? y =
      (b.table.get? y).map fun e => if y = x then e.fail reason else e := by
    rw [abandon_table]
    exact get?_settle_of_isOpen b x y _
  have hentries := Queue.discard_entries hq x
  split
  · next hy =>
    subst hy
    simp only [share, Share.fail, hget, abandon_queue, hentries, List.filter_filter]
    simp
  · next hy =>
    apply share_congr (by simp [hget, hy])
    rw [abandon_queue, hentries, List.filter_filter]
    apply List.filter_congr
    intro e _
    by_cases he : e.task.expression = y <;> simp [he, hy]

/-- A timed-out task fails its expression. -/
theorem share_timeOut {b : Broker} (hq : b.queue.IsOrdered) (t : Task) (y : ExpressionId) :
    (b.timeOut t).share y =
      if y = t.expression then (b.share y).fail timeoutReason else b.share y :=
  share_abandon (b := b.noteTasks .timedOut 1) hq t.expression y timeoutReason

/-! ## Where the queue and the numbers go -/

/-- A broker goes on without claiming a task or registering an expression. -/
def Proceeds (b b' : Broker) : Prop :=
  b.queue.ReachesUnclaiming b'.queue ∧ b.table.SameNumbers b'.table

/-- Nothing has to happen. -/
theorem Proceeds.refl (b : Broker) : b.Proceeds b := ⟨.refl _, rfl, rfl⟩

/-- A broker goes on from where it is. -/
theorem Proceeds.trans {b b' b'' : Broker} (h : b.Proceeds b') (h' : b'.Proceeds b'') :
    b.Proceeds b'' :=
  ⟨h.1.trans h'.1, h'.2.ids_eq.trans h.2.ids_eq, h'.2.lastId_eq.trans h.2.lastId_eq⟩

/-- Order survives while a broker proceeds. -/
theorem Proceeds.isOrdered {b b' : Broker} (h : b.Proceeds b') (hq : b.queue.IsOrdered) :
    b'.queue.IsOrdered := h.1.isOrdered hq

/-- Changing one expression keeps the queue and the numbers. -/
theorem proceeds_modify (b : Broker) (x : ExpressionId) {f : Expression → Expression}
    (hf : ∀ e, (f e).id = e.id) : b.Proceeds { b with table := b.table.modify x f } :=
  ⟨.refl _, Table.sameNumbers_modify _ _ hf⟩

/-- An operation of the queue other than a claim keeps the numbers. -/
theorem proceeds_perform (b : Broker) {c : QueueCall} (hc : ∀ now, c ≠ .claim now) :
    b.Proceeds { b with queue := (b.queue.perform c).2 } :=
  ⟨.perform _ hc, rfl, rfl⟩

theorem proceeds_finish (x : ExpressionId) (v : Int64) (b : Broker) : b.Proceeds (b.finish x v) := by
  unfold finish
  split
  · exact proceeds_modify b x (Expression.complete_id v)
  · exact .refl b

theorem proceeds_abandon (x : ExpressionId) (reason : String) (b : Broker) :
    b.Proceeds (b.abandon x reason) := by
  have hdrop (b : Broker) : b.Proceeds (b.dropTasks x) :=
    proceeds_perform b (c := .discard x) (by simp)
  unfold abandon
  split
  · exact (proceeds_modify b x (Expression.fail_id reason)).trans (hdrop _)
  · exact hdrop b

theorem proceeds_timeOut (t : Task) (b : Broker) : b.Proceeds (b.timeOut t) :=
  proceeds_abandon t.expression timeoutReason (b.noteTasks .timedOut 1)

end Broker

end Piecework
