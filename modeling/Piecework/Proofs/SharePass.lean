import Piecework.Proofs.Reduction
import Piecework.Proofs.Share

/-!
# A pass and the share of its expression

A pass changes the share of its own expression as the reduction of the program
says, with the new tasks under the next numbers, and no other share.
-/

namespace Piecework

/-- Tasks as a pass over an expression puts them into a queue that had given `n` numbers. -/
structure Task.Issued (costs : Costs) (x : ExpressionId) (n : TaskId) (created : List Task) :
    Prop where
  cut : ∀ t ∈ created, t.IsCutFrom costs x
  numbers : created.map (·.id) = List.range' (n + 1) created.length

namespace Task

/-- No task is always issued. -/
theorem issued_nil (costs : Costs) (x : ExpressionId) (n : TaskId) : Issued costs x n [] :=
  ⟨by simp, rfl⟩

/-- Issued tasks have numbers that were not given before. -/
theorem Issued.lt_id {costs : Costs} {x : ExpressionId} {n : TaskId} {created : List Task}
    (h : Issued costs x n created) {t : Task} (ht : t ∈ created) : n < t.id := by
  have hid : t.id ∈ List.range' (n + 1) created.length := h.numbers ▸ List.mem_map_of_mem ht
  exact (List.mem_range'_1.mp hid).1

/-- Issued tasks have different numbers. -/
theorem Issued.nodup {costs : Costs} {x : ExpressionId} {n : TaskId} {created : List Task}
    (h : Issued costs x n created) : (created.map (·.id)).Nodup :=
  h.numbers ▸ List.nodup_range'

end Task

namespace Broker

variable {b : Broker} {x y : ExpressionId}

/-- The new entries belong to the expression whose program was cut. -/
theorem filter_entries_of_takes {created : List Task} {q q' : Queue}
    (htakes : Queue.sink.Takes created q q') (hcreated : ∀ t ∈ created, t.expression = x) :
    q'.entries.filter (·.task.expression = y) =
      q.entries.filter (·.task.expression = y) ++
        if y = x then created.map (⟨·, none⟩) else [] := by
  rw [(Queue.entries_of_takes htakes).1, List.filter_append]
  congr 1
  split
  · next hy => exact List.filter_eq_self.mpr (by simpa [hy] using hcreated)
  · next hy =>
    apply List.filter_eq_nil_iff.mpr
    simpa using fun t ht h => hy (h.symm.trans (hcreated t ht))

/-! ## Taking over a reduction -/

theorem proceeds_applyReduction (x : ExpressionId) (r : Reduction) (b : Broker) :
    b.Proceeds (b.applyReduction x r) := by
  unfold applyReduction
  cases r.outcome with
  | pending => exact proceeds_modify b x (Expression.advance_id r.program)
  | completed v => exact proceeds_finish x v _
  | failed e => exact proceeds_abandon x e.message _

/-- A reduction of one expression leaves the shares of the others. -/
theorem share_applyReduction_of_ne (hq : b.queue.IsOrdered) (hne : y ≠ x) (r : Reduction) :
    (b.applyReduction x r).share y = b.share y := by
  unfold applyReduction
  cases r.outcome with
  | pending =>
    refine share_congr ?_ rfl
    refine (Table.get?_modify _ _ _ (Expression.advance_id r.program)).trans ?_
    simp [hne, noteTasks]
  | completed v => exact share_finish_of_ne hne v _
  | failed e =>
    apply (share_abandon (b := b.noteTasks .created r.spawned.length) hq x y _).trans
    rw [if_neg hne, share_noteTasks]

/-- A pending reduction advances the program of its expression. -/
theorem share_applyReduction_pending (q : Program) (spawned : List TaskId) :
    (b.applyReduction x ⟨q, .pending, spawned⟩).share x =
      ⟨(b.share x).expression.map (·.advance q), (b.share x).entries⟩ := by
  simp only [applyReduction, share]
  rw [Table.get?_modify _ _ _ (Expression.advance_id q)]
  simp [noteTasks]

/-- A completed reduction completes its expression. -/
theorem share_applyReduction_completed (p : Program) (v : Int64) (spawned : List TaskId) :
    (b.applyReduction x ⟨p, .completed v, spawned⟩).share x =
      ⟨(b.share x).expression.map (·.complete v), (b.share x).entries⟩ :=
  share_finish_self x v _

/-- A failed reduction fails its expression. -/
theorem share_applyReduction_failed (hq : b.queue.IsOrdered) (p : Program) (e : ProgramError)
    (spawned : List TaskId) :
    (b.applyReduction x ⟨p, .failed e, spawned⟩).share x = (b.share x).fail e.message :=
  (share_abandon (b := b.noteTasks .created spawned.length) hq x x e.message).trans (if_pos rfl)

/-- A reduction gives no number. -/
theorem applyReduction_lastId (x : ExpressionId) (r : Reduction) (b : Broker) :
    (b.applyReduction x r).queue.lastId = b.queue.lastId := by
  unfold applyReduction
  cases r.outcome with
  | pending => rfl
  | completed v => simp [noteTasks]
  | failed e => simp [noteTasks, Queue.discard]

/-! ## Running a pass -/

theorem proceeds_runPass (x : ExpressionId) (p : Program) (b : Broker) :
    b.Proceeds (b.runPass x p) := by
  obtain ⟨created, _, hreduces⟩ := Program.exists_reduces Queue.sink b.costs x p b.queue
  have hqueue := Queue.reachesUnclaiming_of_takes hreduces.takes
  have htaken : b.Proceeds { b with queue := (p.reduce Queue.sink b.costs x b.queue).2 } :=
    ⟨hqueue, rfl, rfl⟩
  exact htaken.trans (proceeds_applyReduction x _ _)

/-- A pass over one expression leaves the shares of the others. -/
theorem share_runPass_of_ne (hq : b.queue.IsOrdered) (hne : y ≠ x) (p : Program) :
    (b.runPass x p).share y = b.share y := by
  obtain ⟨created, hcut, hreduces⟩ := Program.exists_reduces Queue.sink b.costs x p b.queue
  have hqueue := (Queue.reachesUnclaiming_of_takes hreduces.takes).isOrdered hq
  unfold runPass
  rw [share_applyReduction_of_ne hqueue hne]
  refine share_congr rfl ?_
  rw [filter_entries_of_takes hreduces.takes fun t ht => (hcut t ht).expression_eq]
  simp [hne]

/-- A pass changes the share of its expression as the reduction of the program says. -/
theorem exists_passes_runPass (hq : b.queue.IsOrdered) (x : ExpressionId) (p : Program) :
    ∃ created, Task.Issued b.costs x b.queue.lastId created ∧
      (b.share x).Passes p created ((b.runPass x p).share x) ∧
      (b.runPass x p).queue.lastId = b.queue.lastId + created.length := by
  obtain ⟨created, hcut, hreduces⟩ := Program.exists_reduces Queue.sink b.costs x p b.queue
  obtain ⟨_, hlast, hnumbers⟩ := Queue.entries_of_takes hreduces.takes
  have hqueue := (Queue.reachesUnclaiming_of_takes hreduces.takes).isOrdered hq
  have hentries := filter_entries_of_takes (y := x) hreduces.takes
    fun t ht => (hcut t ht).expression_eq
  rw [if_pos rfl] at hentries
  refine ⟨created, ⟨hcut, hnumbers⟩, ?_, (applyReduction_lastId x _ _).trans hlast⟩
  unfold runPass
  generalize p.reduce Queue.sink b.costs x b.queue = r at hreduces hqueue hentries ⊢
  have hshare : Broker.share x { b with queue := r.2 } =
      ⟨(b.share x).expression, (b.share x).entries ++ created.map (⟨·, none⟩)⟩ := by
    simp only [share, hentries]
  cases hreduces with
  | pending hlength hpost hcuts hwindow _ =>
    rw [share_applyReduction_pending, hshare]
    exact .pending hlength hpost hcuts hwindow
  | completed hp =>
    rw [share_applyReduction_completed]
    exact .completed hp
  | divided hcuts _ =>
    rw [share_applyReduction_failed hqueue, hshare]
    exact .divided hcuts
  | malformed hbad _ hcuts =>
    rw [share_applyReduction_failed hqueue, hshare]
    exact .malformed hbad hcuts

end Broker

end Piecework
