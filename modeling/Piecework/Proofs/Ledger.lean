import Piecework.Proofs.QueueHistory

/-!
# The ledger of a queue

What is queued after a run and what the run has removed make up, each once, the
tasks that were added, numbered from one and as they were added. A number is handed
out once, while it is queued, and its claim stays as it is until the task leaves.
-/

namespace Piecework.Queue

open scoped List

variable {q : Queue}

/-! ## Nothing lost, nothing doubled -/

/-- What a run leaves and what it removes make up what was queued and what it adds. -/
theorem after_perm (hq : q.IsOrdered) (cs : List QueueCall) :
    (q.after cs).entries.map (·.task) ++ q.removals cs ~
      q.entries.map (·.task) ++ Draft.numbered q.lastId (cs.filterMap QueueCall.draft?) := by
  induction cs generalizing q with
  | nil => exact .refl _
  | cons c cs ih =>
    have hfirst := perform_perm hq c
    have hrest := ih (hq.perform c)
    have hdrafts : (c :: cs).filterMap QueueCall.draft? =
        c.draft?.toList ++ cs.filterMap QueueCall.draft? := by
      rw [List.filterMap_cons]
      cases c.draft? <;> rfl
    rw [removals_cons, hdrafts, Draft.numbered_append, ← lastId_perform]
    generalize Draft.numbered (q.perform c).2.lastId _ = later at hrest ⊢
    generalize Draft.numbered q.lastId _ = first at hfirst ⊢
    calc
      ((q.perform c).2.after cs).entries.map (·.task) ++
          ((q.perform c).1.removed ++ (q.perform c).2.removals cs)
        ~ (q.perform c).1.removed ++
            (((q.perform c).2.after cs).entries.map (·.task) ++ (q.perform c).2.removals cs) :=
          List.perm_append_comm_assoc _ _ _
      _ ~ (q.perform c).1.removed ++ ((q.perform c).2.entries.map (·.task) ++ later) :=
          hrest.append_left _
      _ ~ (q.perform c).2.entries.map (·.task) ++ ((q.perform c).1.removed ++ later) :=
          List.perm_append_comm_assoc _ _ _
      _ = (q.perform c).2.entries.map (·.task) ++ (q.perform c).1.removed ++ later :=
          (List.append_assoc _ _ _).symm
      _ ~ q.entries.map (·.task) ++ first ++ later := hfirst.append_right _
      _ = q.entries.map (·.task) ++ (first ++ later) := List.append_assoc _ _ _

/-- What a run hands out is still queued after it, or was removed by it. -/
theorem mem_of_mem_claims (hq : q.IsOrdered) {cs : List QueueCall} {t : Task}
    (ht : t ∈ q.claims cs) : t ∈ (q.after cs).entries.map (·.task) ++ q.removals cs := by
  induction cs generalizing q with
  | nil => contradiction
  | cons c cs ih =>
    have hnext := hq.perform c
    have hrest : t ∈ ((q.perform c).2.after cs).entries.map (·.task) ++
        (q.perform c).2.removals cs := by
      rw [claims_cons] at ht
      rcases List.mem_append.mp ht with hfirst | hlater
      · obtain ⟨now, deadline, q', _, hclaim, hafter⟩ :=
          exists_claim_of_perform (Option.mem_toList.mp hfirst)
        obtain ⟨before, e, behind, _, _, _, _, hentries, _⟩ := exists_of_claim hclaim
        refine (after_perm hnext cs).symm.subset (List.mem_append_left _ ?_)
        rw [hafter, hentries]
        simp
      · exact ih hnext hlater
    rw [removals_cons]
    rcases List.mem_append.mp hrest with hqueued | hremoved
    · exact List.mem_append_left _ hqueued
    · exact List.mem_append_right _ (List.mem_append_right _ hremoved)

/-! ## Claims stay as they are -/

/-- A number finds nothing but this entry, now and later, since it was given before. -/
def Settles (q : Queue) (e : Entry) : Prop :=
  e.task.id ≤ q.lastId ∧ ∀ e' ∈ q.entries, e'.task.id = e.task.id → e' = e

/-- A queued entry is the only one under its number. -/
theorem IsOrdered.settles (hq : q.IsOrdered) {e : Entry} (he : e ∈ q.entries) : q.Settles e :=
  ⟨hq.issued e he, fun _ he' hid => hq.eq_of_id_eq he' he hid⟩

/-- No operation gives the number of a claimed entry to another entry, or changes the claim. -/
theorem Settles.perform {e : Entry} (h : q.Settles e) (hclaimed : e.isClaimed = true)
    (c : QueueCall) : (q.perform c).2.Settles e := by
  refine ⟨?_, fun e' he' hid => ?_⟩
  · rw [lastId_perform]
    exact Nat.le_add_right_of_le h.1
  · rcases mem_perform he' with hold | hnew | ⟨f, hf, htask, hfree⟩
    · exact h.2 e' hold hid
    · exact absurd (hid ▸ h.1) (Nat.not_le_of_lt hnew)
    · have hsame : f = e := h.2 f hf (htask ▸ hid)
      rw [hsame, hclaimed] at hfree
      contradiction

/-- No run does so either. -/
theorem Settles.after {e : Entry} (h : q.Settles e) (hclaimed : e.isClaimed = true)
    (cs : List QueueCall) : (q.after cs).Settles e := by
  induction cs generalizing q with
  | nil => exact h
  | cons c cs ih => exact ih (h.perform hclaimed c)

/-! ## The ledger of a new queue -/

/-- After any run of a new queue the numbers from one to the count of the added tasks are divided
between the queued tasks and the removed ones, each of them once, and every such task is as it was
added. Every operation removes the tasks of the entries that it takes and reports them. A number is
handed out at most once and never after its task was removed, and a claimed entry stays as it is as
long as it is queued. -/
theorem ledger_after (cs : List QueueCall) :
    let q : Queue := after {} cs
    let drafts := cs.filterMap QueueCall.draft?
    let removed := removals {} cs
    let claimed := claims {} cs
    q.entries.map (·.task.id) ++ removed.map (·.id) ~ List.range' 1 drafts.length ∧
      (∀ t ∈ q.entries.map (·.task) ++ removed, drafts[t.id - 1]? = some t.toDraft) ∧
      (claimed.map (·.id)).Nodup ∧
      (∀ t ∈ claimed, t ∈ q.entries.map (·.task) ++ removed) ∧
      (∀ c : QueueCall,
        (q.perform c).1.removed = (q.entries.filter c.takes).map (·.task) ∧
        ∀ t, (q.perform c).1.claimed = some t → t.id ∉ removed.map (·.id)) ∧
      ∀ e ∈ q.entries, e.isClaimed = true → ∀ later : List QueueCall,
        ∀ e' ∈ (q.after later).entries, e'.task.id = e.task.id → e' = e := by
  intro q drafts removed claimed
  have hq : q.IsRegular := isRegular_empty.after cs
  have htasks : q.entries.map (·.task) ++ removed ~ Draft.numbered 0 drafts :=
    after_perm isOrdered_empty cs
  have hids : q.entries.map (·.task.id) ++ removed.map (·.id) ~ List.range' 1 drafts.length := by
    have hmapped := htasks.map (·.id)
    rwa [Draft.map_id_numbered, List.map_append, List.map_map] at hmapped
  refine ⟨hids, fun t ht => Draft.getElem?_of_mem_numbered (htasks.subset ht),
    isRegular_empty.nodup_claims cs, fun t ht => mem_of_mem_claims isOrdered_empty ht,
    fun c => ⟨removed_perform hq.ordered c, fun t ht hremoved => ?_⟩, ?_⟩
  · obtain ⟨now, deadline, q', _, hclaim, _⟩ := exists_claim_of_perform ht
    obtain ⟨⟨e, he, rfl, _⟩, _⟩ := claim_is_lowest hq.ordered hclaim
    have hnodup := hids.nodup_iff.mpr List.nodup_range'
    exact (List.disjoint_of_nodup_append hnodup) (List.mem_map_of_mem he) hremoved
  · intro e he hclaimed later e' he' hid
    exact ((hq.ordered.settles he).after hclaimed later).2 e' he' hid

end Piecework.Queue
