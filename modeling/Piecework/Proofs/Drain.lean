import Piecework.Proofs.Workload

/-!
# Serving until nothing is offered

Every round of polling, computing and reporting takes one unit of work away and brings
up no new claim, so the rounds come to an end, and what is queued then is what others
held from the start. The bound on the number of rounds is the workload, which makes the
limit of `Broker.drain` one that is never reached.
-/

namespace Piecework

namespace Broker

/-- One round with the task that is offered: its report is answered after the poll. -/
def round (now : Time) (t : Task) (b : Broker) : Except LookupError Unit × Broker :=
  (b.poll now).2.report t.compute

/-- The rounds of polling, computing and reporting, up to the poll that offers nothing. -/
inductive DrainsTo (now : Time) : Broker → List Service → Broker → Prop where
  | idle {b : Broker} : (b.poll now).1 = none → DrainsTo now b [] (b.poll now).2
  | round {b last : Broker} {t : Task} {rest : List Service} : (b.poll now).1 = some t →
      DrainsTo now (b.round now t).2 rest last →
      DrainsTo now b (⟨t, t.compute, (b.round now t).1⟩ :: rest) last

variable {b last : Broker} {now : Time} {t : Task} {services : List Service}

/-! ## One round -/

/-- An offered task is queued after the poll. -/
theorem exists_queued_of_poll (hoffer : (b.poll now).1 = some t) :
    ∃ q ∈ (b.poll now).2.queue.entries, q.task = t := by
  obtain ⟨deadline, q, hclaim, hqueue⟩ := Moment.exists_claim_of_poll (m := ⟨now, b⟩) hoffer
  obtain ⟨before, _, behind, _, _, _, _, hentries, _⟩ := Queue.exists_of_claim hclaim
  replace hqueue : (b.poll now).2.queue = q := hqueue
  exact ⟨⟨t, some deadline⟩, by simp [hqueue, hentries], rfl⟩

/-- The report of a round is accepted. -/
theorem round_eq_ok (hb : b.IsConsistent) (hoffer : (b.poll now).1 = some t) :
    (b.round now t).1 = .ok () := by
  obtain ⟨q, hq, rfl⟩ := exists_queued_of_poll hoffer
  exact (Moment.report_eq_ok_iff (Moment.isConsistent_poll hb now) _).mpr
    ⟨q, hq, q.task.compute_id.symm⟩

/-- A round keeps a broker consistent. -/
theorem isConsistent_round (hb : b.IsConsistent) (now : Time) (t : Task) :
    (b.round now t).2.IsConsistent :=
  Moment.isConsistent_report (Moment.isConsistent_poll hb now) t.compute

/-- A poll keeps the numbers of the table. -/
theorem sameNumbers_poll (hb : b.IsConsistent) (now : Time) :
    b.table.SameNumbers (b.poll now).2.table := by
  have hpoll : ∀ text owner, Event.poll ≠ .submit text owner := by simp
  exact Moment.sameNumbers_step (m := ⟨now, b⟩) hb.isOrdered hpoll

/-- A report keeps the numbers of the table. -/
theorem sameNumbers_report (hb : b.IsConsistent) (r : Report) :
    b.table.SameNumbers (b.report r).2.table := by
  have hreport : ∀ text owner, Event.report r ≠ .submit text owner := by simp
  rw [← Moment.step_report_broker ⟨0, b⟩ r]
  exact Moment.sameNumbers_step (m := ⟨0, b⟩) hb.isOrdered hreport

/-- A round keeps the numbers of the table. -/
theorem map_id_round (hb : b.IsConsistent) (now : Time) (t : Task) :
    (b.round now t).2.table.expressions.map (·.id) = b.table.expressions.map (·.id) :=
  (sameNumbers_report (Moment.isConsistent_poll hb now) t.compute).ids_eq.trans
    (sameNumbers_poll hb now).ids_eq

/-- What is claimed after a round was claimed before it. -/
theorem mem_of_round (hb : b.IsConsistent) (hoffer : (b.poll now).1 = some t) {q : Entry}
    (hq : q ∈ (b.round now t).2.queue.entries) (hclaimed : q.isClaimed = true) :
    q ∈ b.queue.entries := by
  obtain ⟨offered, hoffered, rfl⟩ := exists_queued_of_poll hoffer
  rcases Moment.mem_or_new_of_report (Moment.isConsistent_poll hb now) hoffered
    offered.task.compute_id.symm hq with ⟨hpolled, hne⟩ | ⟨_, hfree⟩
  · -- The task that the poll has claimed is the one that was reported.
    rcases Moment.mem_or_offered_of_step (m := ⟨now, b⟩) hb.isOrdered .poll hpolled hclaimed with
      hold | hnew
    · exact hold
    · have htask : offered.task = q.task :=
        Option.some.inj (hoffer.symm.trans (Reply.offered.inj hnew))
      exact absurd (htask ▸ offered.task.compute_id.symm) hne
  · exact absurd hclaimed (by simp [hfree])

/-- A poll that offers a task takes work away. -/
theorem workload_poll_lt (hb : b.IsConsistent) (hoffer : (b.poll now).1 = some t) :
    (b.poll now).2.workload < b.workload := by
  let m : Moment := ⟨now, b⟩
  have hpolled : (b.poll now).2.IsConsistent := Moment.isConsistent_poll hb now
  obtain ⟨q, hq, rfl⟩ := exists_queued_of_poll hoffer
  obtain ⟨e, hget, _⟩ := hpolled.exists_waiting hq
  have hmem : q.task.expression ∈ b.table.expressions.map (·.id) := by
    obtain ⟨he, hid⟩ := Table.mem_of_get? hget
    rw [← (sameNumbers_poll hb now).ids_eq, ← hid]
    exact List.mem_map_of_mem he
  rw [workload_eq_totalLoad hpolled.isOrdered, workload_eq_totalLoad hb.isOrdered,
    (sameNumbers_poll hb now).ids_eq]
  exact totalLoad_lt (Moment.load_step_le (m := m) hb.isOrdered .poll (by simp))
    (Moment.load_poll_lt (m := m) hb.isOrdered hoffer) hmem

/-- A report adds no work. -/
theorem workload_report_le (hb : b.IsConsistent) (r : Report) :
    (b.report r).2.workload ≤ b.workload := by
  let m : Moment := ⟨0, b⟩
  have hload (x : ExpressionId) : ((b.report r).2.share x).load ≤ (b.share x).load := by
    have hle := Moment.load_step_le (m := m) hb.isOrdered (.report r) (by simp) x
    rwa [Moment.step_report_broker] at hle
  rw [workload_eq_totalLoad (Moment.isConsistent_report hb r).isOrdered,
    workload_eq_totalLoad hb.isOrdered, (sameNumbers_report hb r).ids_eq]
  exact totalLoad_le hload _

/-- A round takes work away. -/
theorem workload_round_lt (hb : b.IsConsistent) (hoffer : (b.poll now).1 = some t) :
    (b.round now t).2.workload < b.workload :=
  Nat.lt_of_le_of_lt (workload_report_le (Moment.isConsistent_poll hb now) t.compute)
    (workload_poll_lt hb hoffer)

/-! ## All rounds -/

/-- With a limit above the workload, serving goes on until nothing is offered. -/
theorem serve_drainsTo (hb : b.IsConsistent) {limit : Nat} (hlimit : b.workload < limit) :
    b.DrainsTo now (b.serve now limit).1 (b.serve now limit).2 := by
  induction limit generalizing b with
  | zero => exact absurd hlimit (Nat.not_lt_zero _)
  | succ limit ih =>
    cases hpoll : b.poll now with
    | mk offer b' =>
      cases offer with
      | none =>
        have hidle : (b.poll now).1 = none := by rw [hpoll]
        have hdone := DrainsTo.idle hidle
        rw [hpoll] at hdone
        simpa only [serve, hpoll] using hdone
      | some t =>
        have hoffer : (b.poll now).1 = some t := by rw [hpoll]
        -- The round takes one off the limit and one off the workload at least.
        have hless := workload_round_lt hb hoffer
        have hrest := ih (isConsistent_round hb now t)
          (Nat.lt_of_lt_of_le hless (Nat.le_of_lt_succ hlimit))
        have hround := DrainsTo.round hoffer hrest
        simp only [Broker.round, hpoll] at hround
        simpa only [serve, hpoll] using hround

/-- The rounds are determined by the broker that they start from. -/
theorem DrainsTo.unique {services' : List Service} {last' : Broker}
    (h : b.DrainsTo now services last) (h' : b.DrainsTo now services' last') :
    services = services' ∧ last = last' := by
  induction h generalizing services' last' with
  | idle hidle =>
    cases h' with
    | idle _ => exact ⟨rfl, rfl⟩
    | round hoffer _ => exact absurd (hidle.symm.trans hoffer) (by simp)
  | round hoffer _ ih =>
    cases h' with
    | idle hidle => exact absurd (hidle.symm.trans hoffer) (by simp)
    | round hoffer' hrest =>
      obtain rfl := Option.some.inj (hoffer.symm.trans hoffer')
      obtain ⟨rfl, rfl⟩ := ih hrest
      exact ⟨rfl, rfl⟩

/-- The limit of draining is never reached: any larger one serves the same. -/
theorem serve_eq_drain (hb : b.IsConsistent) {limit : Nat} (hlimit : b.workload < limit) :
    b.serve now limit = b.drain now := by
  have hdrain : b.DrainsTo now (b.drain now).1 (b.drain now).2 :=
    serve_drainsTo hb (Nat.lt_succ_self b.workload)
  obtain ⟨hservices, hlast⟩ := (serve_drainsTo hb hlimit).unique hdrain
  exact Prod.ext hservices hlast

/-- There are at most as many rounds as there are units of work. -/
theorem DrainsTo.length_le (h : b.DrainsTo now services last) (hb : b.IsConsistent) :
    services.length ≤ b.workload := by
  induction h with
  | idle _ => exact Nat.zero_le _
  | round hoffer _ ih =>
    have hrest := ih (isConsistent_round hb now _)
    exact Nat.lt_of_le_of_lt hrest (workload_round_lt hb hoffer)

/-- Every task is computed, and its report accepted. -/
theorem DrainsTo.accepted (h : b.DrainsTo now services last) (hb : b.IsConsistent) :
    ∀ s ∈ services, s.report = s.task.compute ∧ s.answer = .ok () := by
  induction h with
  | idle _ => simp
  | round hoffer _ ih =>
    refine List.forall_mem_cons.mpr ⟨⟨rfl, round_eq_ok hb hoffer⟩, ?_⟩
    exact ih (isConsistent_round hb now _)

/-- The rounds leave a consistent broker. -/
theorem DrainsTo.isConsistent (h : b.DrainsTo now services last) (hb : b.IsConsistent) :
    last.IsConsistent := by
  induction h with
  | idle _ => exact Moment.isConsistent_poll hb now
  | round _ _ ih => exact ih (isConsistent_round hb now _)

/-- The rounds leave the numbers of the table. -/
theorem DrainsTo.map_id_eq (h : b.DrainsTo now services last) (hb : b.IsConsistent) :
    last.table.expressions.map (·.id) = b.table.expressions.map (·.id) := by
  induction h with
  | idle _ => exact (sameNumbers_poll hb now).ids_eq
  | round _ _ ih => exact (ih (isConsistent_round hb now _)).trans (map_id_round hb now _)

/-- What is queued after a poll that offers nothing is claimed. -/
theorem isClaimed_of_poll_eq_none (hidle : (b.poll now).1 = none) {q : Entry}
    (hq : q ∈ (b.poll now).2.queue.entries) : q.isClaimed = true := by
  have hall := (Moment.poll_eq_none_iff (m := ⟨now, b⟩)).mp hidle
  have hclaim := (Queue.claim_eq_none_iff _ now).mpr hall
  have hqueue : (b.poll now).2.queue = (b.reap now).queue := by
    simp [poll, hclaim, gauge]
  exact hall q (hqueue ▸ hq)

/-- What is queued after the last round was claimed before the first. -/
theorem DrainsTo.held (h : b.DrainsTo now services last) (hb : b.IsConsistent) :
    ∀ q ∈ last.queue.entries, q.isClaimed = true ∧ q ∈ b.queue.entries := by
  induction h with
  | @idle b hidle =>
    intro q hq
    have hclaimed := isClaimed_of_poll_eq_none hidle hq
    refine ⟨hclaimed, ?_⟩
    rcases Moment.mem_or_offered_of_step (m := ⟨now, b⟩) hb.isOrdered .poll hq hclaimed with
      hold | hnew
    · exact hold
    · exact absurd (hidle.symm.trans (Reply.offered.inj hnew)) (by simp)
  | round hoffer _ ih =>
    intro q hq
    obtain ⟨hclaimed, hmem⟩ := ih (isConsistent_round hb now _) q hq
    exact ⟨hclaimed, mem_of_round hb hoffer hmem hclaimed⟩

end Broker

namespace Moment

variable {m : Moment}

/-- In every reachable moment, and with the clock standing still at any time, polling, computing and
reporting comes to a poll that offers nothing within as many rounds as there are operators in open
programs and tasks that nobody holds. Every report is accepted. What is queued at the end is what was
claimed before, and every expression without such a task has finished. The limit that is set for the
rounds is never reached, and any larger one serves the same. -/
theorem Reachable.drain_finishes (h : m.Reachable) (now : Time) :
    let served := (m.broker.drain now).1
    let last := (m.broker.drain now).2
    m.broker.DrainsTo now served last ∧
      served.length ≤
        ((m.broker.table.expressions.filter (! ·.isFinal)).map (·.program.operatorCount)).foldr
            (· + ·) 0 +
          m.broker.queue.entries.countP (! ·.isClaimed) ∧
      (∀ s ∈ served, s.report = s.task.compute ∧ s.answer = .ok ()) ∧
      (∀ q ∈ last.queue.entries, q.isClaimed = true ∧ q ∈ m.broker.queue.entries) ∧
      last.table.expressions.map (·.id) = m.broker.table.expressions.map (·.id) ∧
      (∀ e ∈ last.table.expressions,
        (∀ q ∈ last.queue.entries, q.task.expression ≠ e.id) → e.isFinal = true) ∧
      ∀ limit, m.broker.workload < limit → m.broker.serve now limit = (served, last) := by
  intro served last
  have hm := h.isConsistent
  have hdrains : m.broker.DrainsTo now served last :=
    Broker.serve_drainsTo hm (Nat.lt_succ_self m.broker.workload)
  have hlast := hdrains.isConsistent hm
  refine ⟨hdrains, hdrains.length_le hm, hdrains.accepted hm, hdrains.held hm,
    hdrains.map_id_eq hm, fun e he hfree => ?_, fun limit => Broker.serve_eq_drain hm⟩
  exact hlast.isFinal_of_no_tasks (hlast.table.get?_eq_some he) hfree

/-- One of four tasks is held when the others are served, the last of them cut out on the way. The
expression of the held task is still being processed, and the other one has finished. -/
theorem drain_finishes_beside_claim :
    let m := after {} [.submit "(1+2)*(3+4)" 0, .submit "5*6-1" 0, .poll]
    let last := (m.broker.drain 0).2
    (m.broker.drain 0).1.map (·.task.id) = [2, 3, 4] ∧ m.broker.workload = 4 ∧
      (∀ s ∈ (m.broker.drain 0).1, s.report = s.task.compute ∧ s.answer = .ok ()) ∧
      (∀ q ∈ last.queue.entries, q.isClaimed = true ∧ q ∈ m.broker.queue.entries) ∧
      last.table.expressions.map (·.status) = [.processing, .done 29] := by
  intro m last
  have hreachable : Reachable m := ⟨{}, _, rfl⟩
  obtain ⟨_, _, haccepted, hheld, _, _⟩ := hreachable.drain_finishes 0
  exact ⟨by decide +kernel, by decide +kernel, haccepted, hheld, by decide +kernel⟩

end Moment

end Piecework
