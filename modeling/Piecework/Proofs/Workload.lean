import Piecework.Proofs.Acceptance
import Piecework.Proofs.Offers

/-!
# The workload

An operator left in an open program and a task that nobody holds are one unit of work
each. A pass turns operators into tasks one for one, a claim takes a unit away, and
failing takes all that is left, so no event but a submission adds to the load of an
expression. The workload of a broker is the sum of these loads.
-/

namespace Piecework

namespace Expression

/-- The operators that are left to do: those of the program, as long as the expression is open. -/
def operators (e : Expression) : Nat := if e.isFinal then 0 else e.program.operatorCount

/-- An open expression has all its operators left. -/
theorem operators_of_open {e : Expression} (hopen : e.isFinal = false) :
    e.operators = e.program.operatorCount := if_neg (by simp [hopen])

/-- A finished expression has no operators left. -/
theorem operators_of_isFinal {e : Expression} (hfinal : e.isFinal = true) : e.operators = 0 :=
  if_pos hfinal

end Expression

namespace Share

/-- The work that is left for an expression: its operators and its tasks that nobody holds. -/
def load (s : Share) : Nat :=
  s.expression.elim 0 (·.operators) + s.entries.countP (! ·.isClaimed)

/-- The load of a share with an expression. -/
theorem load_some (e : Expression) (es : List Entry) :
    load ⟨some e, es⟩ = e.operators + es.countP (! ·.isClaimed) := rfl

/-- A failed expression leaves no work. -/
theorem load_fail (reason : String) (s : Share) : (s.fail reason).load = 0 := by
  obtain ⟨_ | e, es⟩ := s
  · rfl
  · exact congrArg (· + 0) (Expression.operators_of_isFinal (e.isFinal_fail reason))

/-- Failing adds no work to what there was. -/
theorem load_fail_le (reason : String) (s s' : Share) : (s.fail reason).load ≤ s'.load := by
  rw [load_fail]
  exact Nat.zero_le _

/-- Fewer entries are no more work. -/
theorem load_filter_le (expression : Option Expression) (P : Entry → Bool) (es : List Entry) :
    load ⟨expression, es.filter P⟩ ≤ load ⟨expression, es⟩ :=
  Nat.add_le_add_left (List.filter_sublist.countP_le) _

/-- A pass makes one task out of one operator, so it adds no work. -/
theorem Passes.load_le {e : Expression} {es : List Entry} {created : List Task} {s' : Share}
    (h : Passes e.program ⟨some e, es⟩ created s') (hopen : e.isFinal = false) :
    s'.load ≤ load ⟨some e, es⟩ := by
  cases h with
  | @pending _ q _ _ hcuts _ =>
    have hfree : (created.map (Entry.mk · none)).countP (! ·.isClaimed) = created.length := by
      rw [List.countP_map, List.countP_eq_length.mpr]
      simp [Entry.isClaimed]
    have hoperators : ({ e with program := q } : Expression).operators = q.operatorCount :=
      Expression.operators_of_open (e := { e with program := q }) hopen
    simp only [Option.map_some, Expression.advance_of_open hopen]
    rw [load_some, load_some, Expression.operators_of_open hopen, hoperators,
      hcuts.operatorCount_eq, List.countP_append, hfree]
    omega
  | @completed v _ =>
    have hfinal : (e.complete v).isFinal = true := by
      rw [Expression.complete, Expression.settle_of_open hopen]
      rfl
    simp only [Option.map_some]
    rw [load_some, load_some, Expression.operators_of_isFinal hfinal]
    omega
  | divided _ => exact load_fail_le _ _ _
  | malformed _ => exact load_fail_le _ _ _

/-- A claim takes one unit of work away. -/
theorem load_claimed (expression : Option Expression) (before behind : List Entry) {e : Entry}
    (hfree : e.isClaimed = false) (deadline : Time) :
    load ⟨expression, before ++ ⟨e.task, some deadline⟩ :: behind⟩ + 1 =
      load ⟨expression, before ++ e :: behind⟩ := by
  have hheld : Entry.isClaimed ⟨e.task, some deadline⟩ = true := rfl
  simp only [load, List.countP_append, List.countP_cons, hfree, hheld]
  simp only [Bool.not_false, Bool.not_true, if_true, Bool.false_eq_true, if_false]
  omega

end Share

namespace Moment

variable {m : Moment} {x : ExpressionId}

/-- No event but a submission adds to the load of an expression. -/
theorem Change.load_le {ev : Event} {s s' : Share} {created : List Task}
    (h : m.Change x ev s created s') (hev : ∀ text owner, ev ≠ .submit text owner) :
    s'.load ≤ s.load := by
  cases h with
  | unchanged => exact Nat.le_refl _
  | @submitted text owner _ _ _ _ _ _ => exact absurd rfl (hev text owner)
  | @claimed s before behind e deadline hentries hfree _ =>
    obtain ⟨expression, es⟩ := s
    obtain rfl : es = before ++ e :: behind := hentries
    have hunit := Share.load_claimed expression before behind hfree deadline
    exact Nat.le_of_lt (Nat.lt_of_succ_le (Nat.le_of_eq hunit))
  | timedOut _ => exact Share.load_fail_le _ _ _
  | refused _ _ _ _ => exact Share.load_fail_le _ _ _
  | @resumed r t e _ s _ _ _ _ _ he hopen _ hpasses =>
    obtain ⟨expression, es⟩ := s
    obtain rfl : expression = some e := he
    refine Nat.le_trans (hpasses.load_le (e := e.substitute t.id r.result) hopen) ?_
    refine Nat.le_trans (Share.load_filter_le _ _ es) (Nat.le_of_eq ?_)
    rw [Share.load_some, Share.load_some, Expression.operators_of_open hopen,
      Expression.operators_of_open (e := e.substitute t.id r.result) hopen]
    exact congrArg (· + _) (Program.operatorCount_substitute t.id r.result e.program)
  | unmentioned _ _ _ _ _ => exact Share.load_fail_le _ _ _
  | ignored _ _ _ _ => exact Share.load_filter_le _ _ _

/-- No event but a submission adds to any load. -/
theorem load_step_le (hm : m.broker.IsOrdered) (ev : Event)
    (hev : ∀ text owner, ev ≠ .submit text owner) (x : ExpressionId) :
    ((m.step ev).2.broker.share x).load ≤ (m.broker.share x).load := by
  obtain ⟨_, hchange, _⟩ := exists_change hm ev x
  exact hchange.load_le hev

/-- A poll that offers a task takes work away from its expression. -/
theorem load_poll_lt (hm : m.broker.IsOrdered) {t : Task}
    (h : (m.broker.poll m.now).1 = some t) :
    ((m.broker.poll m.now).2.share t.expression).load <
      (m.broker.share t.expression).load := by
  obtain ⟨deadline, q, hclaim, _⟩ := exists_claim_of_poll h
  have hshare : (m.broker.poll m.now).2.share t.expression =
      Broker.share t.expression { m.broker.reap m.now with queue := q } := by
    simp [Broker.poll, hclaim]
  obtain ⟨⟨before, e, behind, hentries, hfree, rfl, hclaimed⟩, _⟩ := Broker.share_claim hclaim
  have hreaped := (change_reap hm e.task.expression).load_le (by simp)
  have hunit := Share.load_claimed ((m.broker.reap m.now).share e.task.expression).expression
    before behind hfree deadline
  rw [hshare, hclaimed]
  rw [← hentries] at hunit
  exact Nat.lt_of_lt_of_le (Nat.lt_of_succ_le (Nat.le_of_eq hunit)) hreaped

end Moment

namespace Broker

variable {b b' : Broker}

/-- The loads of a row of expressions together. -/
def totalLoad (ids : List ExpressionId) (b : Broker) : Nat :=
  (ids.map fun x => (b.share x).load).foldr (· + ·) 0

@[simp] theorem totalLoad_cons (x : ExpressionId) (ids : List ExpressionId) (b : Broker) :
    b.totalLoad (x :: ids) = (b.share x).load + b.totalLoad ids := rfl

/-- Where no load is larger, all together are not larger. -/
theorem totalLoad_le (hle : ∀ x, (b'.share x).load ≤ (b.share x).load) (ids : List ExpressionId) :
    b'.totalLoad ids ≤ b.totalLoad ids := by
  induction ids with
  | nil => exact Nat.le_refl _
  | cons x ids ih =>
    rw [totalLoad_cons, totalLoad_cons]
    exact Nat.add_le_add (hle x) ih

/-- Where no load is larger and one is smaller, all together are smaller. -/
theorem totalLoad_lt (hle : ∀ x, (b'.share x).load ≤ (b.share x).load) {x : ExpressionId}
    (hlt : (b'.share x).load < (b.share x).load) {ids : List ExpressionId} (hx : x ∈ ids) :
    b'.totalLoad ids < b.totalLoad ids := by
  induction ids with
  | nil => contradiction
  | cons y ids ih =>
    rw [totalLoad_cons, totalLoad_cons]
    rcases List.mem_cons.mp hx with rfl | hrest
    · exact Nat.add_lt_add_of_lt_of_le hlt (totalLoad_le hle ids)
    · exact Nat.add_lt_add_of_le_of_lt (hle y) (ih hrest)

/-- Expression by expression, operators and entries are all counted once. -/
theorem sum_operators_add_countP {es : List Expression} (hes : (es.map (·.id)).Nodup)
    {qs : List Entry} (hqs : ∀ q ∈ qs, q.task.expression ∈ es.map (·.id)) (P : Entry → Bool) :
    ((es.filter (! ·.isFinal)).map (·.program.operatorCount)).foldr (· + ·) 0 + qs.countP P =
      (es.map fun e => e.operators + (qs.filter (·.task.expression = e.id)).countP P).foldr
        (· + ·) 0 := by
  induction es generalizing qs with
  | nil =>
    have hnone : qs = [] := List.eq_nil_iff_forall_not_mem.mpr fun q hq => by simpa using hqs q hq
    simp [hnone]
  | cons e es ih =>
    obtain ⟨hfresh, hes⟩ := List.nodup_cons.mp hes
    -- The entries of the first expression are set apart from those of the others.
    let others := qs.filter fun q => ! decide (q.task.expression = e.id)
    have hsplit : qs.countP P =
        (qs.filter (·.task.expression = e.id)).countP P + others.countP P :=
      List.countP_eq_countP_filter_add qs P _
    have hothers : ∀ q ∈ others, q.task.expression ∈ es.map (·.id) := by
      intro q hq
      obtain ⟨hq, hne⟩ := List.mem_filter.mp hq
      exact (List.mem_cons.mp (hqs q hq)).resolve_left (by simpa using hne)
    have hsame : ∀ e' ∈ es, others.filter (·.task.expression = e'.id) =
        qs.filter (·.task.expression = e'.id) := by
      intro e' he'
      have hne : e'.id ≠ e.id := fun hid => hfresh (List.mem_map.mpr ⟨e', he', hid⟩)
      rw [List.filter_filter]
      apply List.filter_congr
      intro q _
      by_cases hq : q.task.expression = e'.id <;> simp [hq, hne]
    have hsum : (es.map fun e' =>
          e'.operators + (others.filter (·.task.expression = e'.id)).countP P) =
        es.map fun e' => e'.operators + (qs.filter (·.task.expression = e'.id)).countP P :=
      List.map_congr_left fun e' he' => by rw [hsame e' he']
    rw [List.map_cons, List.foldr_cons, ← hsum, ← ih hes hothers, hsplit]
    cases hfinal : e.isFinal with
    | true =>
      rw [List.filter_cons_of_neg (by simp [hfinal]), Expression.operators_of_isFinal hfinal]
      omega
    | false =>
      rw [List.filter_cons_of_pos (by simp [hfinal]), Expression.operators_of_open hfinal,
        List.map_cons, List.foldr_cons]
      omega

/-- The workload is the load of all expressions together. -/
theorem workload_eq_totalLoad (hb : b.IsOrdered) :
    b.workload = b.totalLoad (b.table.expressions.map (·.id)) := by
  have hnodup : (b.table.expressions.map (·.id)).Nodup := hb.table ▸ List.nodup_range'
  have hknown : ∀ q ∈ b.queue.entries, q.task.expression ∈ b.table.expressions.map (·.id) := by
    intro q hq
    obtain ⟨e, hget⟩ := exists_get?_of_queued hb hq
    obtain ⟨he, hid⟩ := Table.mem_of_get? hget
    exact hid ▸ List.mem_map_of_mem he
  rw [workload, sum_operators_add_countP hnodup hknown, totalLoad, List.map_map]
  refine congrArg (List.foldr (· + ·) 0) (List.map_congr_left fun e he => ?_)
  have hget : b.table.get? e.id = some e := hb.table.get?_eq_some he
  simp [Share.load, share, hget]

end Broker

end Piecework
