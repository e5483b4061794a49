import Piecework.Proofs.Watchdogs

/-!
# The history of a queue

An operation takes a filter of the entries out of the queue and reports exactly
their tasks, it adds at most one task under the next number, and it hands out a task
that nobody held. All this is said once for one operation, for a queue that some run
has come to; what holds over whole runs follows by induction on the row of operations.
-/

namespace Piecework

/-! ## Numbering -/

namespace Draft

/-- Two rows of drafts are numbered one after the other. -/
theorem numbered_append (n : TaskId) (ds ds' : List Draft) :
    numbered n (ds ++ ds') = numbered n ds ++ numbered (n + ds.length) ds' := by
  induction ds generalizing n with
  | nil => rfl
  | cons d ds ih =>
    rw [List.cons_append, numbered, ih, numbered, List.cons_append, List.length_cons,
      Nat.add_assoc, Nat.add_comm 1]

/-- Drafts are numbered without gaps. -/
theorem map_id_numbered (n : TaskId) (ds : List Draft) :
    (numbered n ds).map (·.id) = List.range' (n + 1) ds.length := by
  induction ds generalizing n with
  | nil => rfl
  | cons d ds ih => rw [numbered, List.map_cons, ih, List.length_cons, List.range'_succ]

/-- A numbered task carries the draft at its place in the row. -/
theorem getElem?_of_mem_numbered {n : TaskId} {ds : List Draft} {t : Task}
    (ht : t ∈ numbered n ds) : ds[t.id - (n + 1)]? = some t.toDraft := by
  induction ds generalizing n with
  | nil => contradiction
  | cons d ds ih =>
    rcases List.mem_cons.mp ht with rfl | hrest
    · simp
    · have hid : t.id ∈ List.range' (n + 1 + 1) ds.length :=
        map_id_numbered (n + 1) ds ▸ List.mem_map_of_mem hrest
      obtain ⟨k, hk⟩ := Nat.exists_eq_add_of_le (List.mem_range'_1.mp hid).1
      have hplace := ih hrest
      rw [hk, Nat.add_sub_cancel_left] at hplace
      rw [hk, Nat.add_assoc (n + 1), Nat.add_sub_cancel_left, Nat.add_comm 1]
      exact hplace

end Draft

namespace Queue

variable {q : Queue}

/-! ## One operation -/

/-- A number picks out the entry that it finds. -/
theorem IsOrdered.filter_id_eq (hq : q.IsOrdered) (id : TaskId) :
    q.entries.filter (·.task.id = id) = (q.get? id).toList := by
  cases hfind : q.get? id with
  | none =>
    exact List.filter_eq_nil_iff.mpr fun e he => by simpa using ne_of_get?_eq_none hfind e he
  | some e =>
    obtain ⟨he, rfl⟩ := mem_of_get? hfind
    refine List.perm_singleton.mp ((List.perm_ext_iff_of_nodup (hq.nodup.of_map.filter _)
      (List.nodup_singleton e)).mpr fun e' => ?_)
    simp only [List.mem_filter, decide_eq_true_eq, List.mem_singleton]
    constructor
    · rintro ⟨he', hid⟩
      exact hq.eq_of_id_eq he' he hid
    · rintro rfl
      exact ⟨he, rfl⟩

/-- The entry that a complete operation takes is the one that its number finds. -/
theorem IsOrdered.filter_takes_complete (hq : q.IsOrdered) (id : TaskId) :
    q.entries.filter (QueueCall.complete id).takes = (q.get? id).toList :=
  hq.filter_id_eq id

/-- A watchdog takes the entry that its number finds if the claim has lapsed. -/
theorem IsOrdered.filter_takes_reclaim (hq : q.IsOrdered) (id : TaskId) (now : Time) :
    q.entries.filter (QueueCall.reclaim id now).takes =
      (q.get? id).toList.filter (·.hasLapsed now) := by
  rw [← hq.filter_id_eq, List.filter_filter]
  rfl

/-- A watchdog takes nothing but its own entry, and that only if the entry has lapsed. -/
theorem IsOrdered.takes_reclaim (hq : q.IsOrdered) {e e' : Entry} (he : e ∈ q.entries)
    (he' : e' ∈ q.entries) (now : Time) :
    (QueueCall.reclaim e.task.id now).takes e' =
      (e.hasLapsed now && decide (e'.task.id = e.task.id)) := by
  by_cases hid : e'.task.id = e.task.id
  · rw [hq.eq_of_id_eq he' he hid, QueueCall.takes]
  · simp [QueueCall.takes, hid]

/-- An operation reports the tasks of the entries that it takes. -/
theorem removed_perform (hq : q.IsOrdered) (c : QueueCall) :
    (q.perform c).1.removed = (q.entries.filter c.takes).map (·.task) := by
  cases c with
  | add d => simp [perform, QueueCall.takes]
  | claim now =>
    simp only [perform]
    split <;> simp [QueueCall.takes]
  | complete id =>
    rw [hq.filter_takes_complete, perform, complete]
    cases q.get? id <;> rfl
  | reclaim id now =>
    rw [hq.filter_takes_reclaim, perform, reclaim]
    cases q.get? id with
    | none => rfl
    | some e => cases hlapsed : e.hasLapsed now <;> simp [hlapsed]
  | takeExpired now => exact takeExpired_tasks hq now
  | discard expression => exact completeAll_tasks hq List.filter_sublist

/-- An operation that neither adds nor claims leaves the entries that it does not take. -/
theorem entries_perform (hq : q.IsOrdered) {c : QueueCall} (hadd : ∀ d, c ≠ .add d)
    (hclaim : ∀ now, c ≠ .claim now) :
    (q.perform c).2.entries = q.entries.filter (! c.takes ·) := by
  cases c with
  | add d => exact absurd rfl (hadd d)
  | claim now => exact absurd rfl (hclaim now)
  | complete id =>
    simp only [perform, complete]
    cases hfind : q.get? id with
    | none =>
      refine (List.filter_eq_self.mpr fun e he => ?_).symm
      simpa [QueueCall.takes] using ne_of_get?_eq_none hfind e he
    | some e => simp [QueueCall.takes]
  | reclaim id now =>
    simp only [perform, reclaim]
    cases hfind : q.get? id with
    | none =>
      refine (List.filter_eq_self.mpr fun e he => ?_).symm
      simp [QueueCall.takes, ne_of_get?_eq_none hfind e he]
    | some e =>
      obtain ⟨he, rfl⟩ := mem_of_get? hfind
      cases hlapsed : e.hasLapsed now with
      | false =>
        simp only [hlapsed, Bool.false_eq_true, if_false]
        exact (List.filter_eq_self.mpr fun e' he' => by
          simp [hq.takes_reclaim he he' now, hlapsed]).symm
      | true =>
        simp only [hlapsed, if_true]
        exact List.filter_congr fun e' he' => by simp [hq.takes_reclaim he he' now, hlapsed]
  | takeExpired now => exact takeExpired_entries hq now
  | discard expression => exact completeAll_filter_entries hq _

/-- An operation raises the last number by the task that it adds. -/
theorem lastId_perform (q : Queue) (c : QueueCall) :
    (q.perform c).2.lastId = q.lastId + c.draft?.toList.length := by
  cases c with
  | add d => rfl
  | claim now =>
    simp only [perform]
    split
    · rfl
    · next h =>
      obtain ⟨_, _, _, _, _, _, _, _, hlast⟩ := exists_of_claim h
      exact hlast
  | complete id | reclaim id now | takeExpired now | discard expression =>
    exact (q.perform_sublist (by simp) (by simp)).2

/-- An operation leaves the tasks of the entries that it does not take, and the task it adds. -/
theorem tasks_perform (hq : q.IsOrdered) (c : QueueCall) :
    (q.perform c).2.entries.map (·.task) =
      (q.entries.filter (! c.takes ·)).map (·.task) ++
        Draft.numbered q.lastId c.draft?.toList := by
  cases c with
  | add d =>
    simp [perform, add, QueueCall.takes, QueueCall.draft?, Draft.numbered]
  | claim now =>
    simp only [perform]
    split
    · simp [QueueCall.takes, QueueCall.draft?, Draft.numbered]
    · next h =>
      obtain ⟨before, e, behind, hentries, _, _, rfl, hafter, _⟩ := exists_of_claim h
      simp [QueueCall.takes, QueueCall.draft?, Draft.numbered, hentries, hafter]
  | complete id | reclaim id now | takeExpired now | discard expression =>
    rw [entries_perform hq (by simp) (by simp)]
    simp [QueueCall.draft?, Draft.numbered]

/-- No operation loses or doubles a task: what it leaves and what it reports as removed make up
what was queued and what it adds. -/
theorem perform_perm (hq : q.IsOrdered) (c : QueueCall) :
    ((q.perform c).2.entries.map (·.task) ++ (q.perform c).1.removed).Perm
      (q.entries.map (·.task) ++ Draft.numbered q.lastId c.draft?.toList) := by
  rw [tasks_perform hq, removed_perform hq, List.append_assoc]
  have hsplit : ((q.entries.filter (! c.takes ·)).map (·.task) ++
      (q.entries.filter c.takes).map (·.task)).Perm (q.entries.map (·.task)) := by
    rw [← List.map_append]
    exact (List.perm_append_comm.trans (List.filter_append_perm c.takes q.entries)).map _
  exact (List.perm_append_comm.append_left _).trans
    ((List.append_assoc _ _ _).symm ▸ hsplit.append_right _)

/-- A number is queued when some entry has it. -/
theorem contains_iff {id : TaskId} :
    q.contains id = true ↔ id ∈ (q.entries.map (·.task)).map (·.id) := by
  rw [contains, get?, List.find?_isSome]
  simp

/-- The number of an entry leaves the queue when the operation takes the entry. -/
theorem contains_perform_iff (hq : q.IsOrdered) (c : QueueCall) {e : Entry}
    (he : e ∈ q.entries) :
    (q.perform c).2.contains e.task.id = false ↔ c.takes e = true := by
  -- A task that the operation adds has a number above all that were given.
  have hold : e.task.id ∉ (Draft.numbered q.lastId c.draft?.toList).map (·.id) := by
    rw [Draft.map_id_numbered, List.mem_range'_1]
    exact fun hnew => Nat.not_le_of_lt hnew.1 (hq.issued e he)
  rw [← Bool.not_eq_true, contains_iff, tasks_perform hq, List.map_append, List.mem_append,
    or_iff_left hold, List.map_map, List.mem_map]
  constructor
  · intro hleft
    by_contra hkept
    exact hleft ⟨e, List.mem_filter.mpr ⟨he, by simpa using hkept⟩, rfl⟩
  · rintro htakes ⟨e', he', hid⟩
    obtain ⟨hqueued, hkept⟩ := List.mem_filter.mp he'
    rw [hq.eq_of_id_eq hqueued he hid, htakes] at hkept
    contradiction

/-- Only a claim hands out a task. -/
theorem exists_claim_of_perform {c : QueueCall} {t : Task}
    (h : (q.perform c).1.claimed = some t) :
    ∃ now deadline q', c = .claim now ∧ q.claim now = some (t, deadline, q') ∧
      (q.perform c).2 = q' := by
  cases c with
  | claim now =>
    simp only [perform] at h ⊢
    split at h
    · contradiction
    · next t' deadline q' hclaim =>
      obtain rfl := Option.some.inj h
      exact ⟨now, deadline, q', rfl, hclaim, rfl⟩
  | add d | takeExpired now | discard expression => contradiction
  | complete id | reclaim id now =>
    simp only [perform] at h
    split at h <;> contradiction

/-- A claim that hands out no task changes nothing. -/
theorem perform_claim_of_none {now : Time} (h : (q.perform (.claim now)).1.claimed = none) :
    (q.perform (.claim now)).2 = q := by
  simp only [perform] at h ⊢
  split at h
  · rfl
  · contradiction

/-- An entry after an operation was queued before, or is new, or was claimed just now. -/
theorem mem_perform {c : QueueCall} {e : Entry} (he : e ∈ (q.perform c).2.entries) :
    e ∈ q.entries ∨ q.lastId < e.task.id ∨ ∃ f ∈ q.entries, f.task = e.task ∧ f.isClaimed = false := by
  by_cases hclaim : ∃ now, c = .claim now
  · obtain ⟨now, rfl⟩ := hclaim
    simp only [perform] at he
    split at he
    · exact .inl he
    · next h =>
      obtain ⟨before, f, behind, hentries, _, hfree, rfl, hafter, _⟩ := exists_of_claim h
      rw [hafter] at he
      rcases List.mem_append.mp he with hbefore | hrest
      · exact .inl (by simp [hentries, hbefore])
      · rcases List.mem_cons.mp hrest with rfl | hbehind
        · exact .inr (.inr ⟨f, by simp [hentries], rfl, hfree⟩)
        · exact .inl (by simp [hentries, hbehind])
  · rcases mem_or_new_of_perform (not_exists.mp hclaim) he with hold | hnew
    · exact .inl hold
    · exact .inr (.inl hnew.1)

/-! ## Queues that a run comes to -/

/-- What holds of a queue after any run: it is in order, its watchdogs are those of the claimed
entries, and the claimed entries are those up to a watermark. -/
structure IsRegular (q : Queue) : Prop where
  ordered : q.IsOrdered
  guarded : q.IsGuarded
  watermark : ∃ k, q.IsClaimedUpTo k

/-- A new queue is regular. -/
theorem isRegular_empty : IsRegular {} :=
  ⟨isOrdered_empty, isGuarded_empty, 0, isClaimedUpTo_empty⟩

/-- An operation leaves a watermark, above the old one if it hands out a task. -/
theorem IsClaimedUpTo.exists_perform {k : TaskId} (hk : q.IsClaimedUpTo k) (hq : q.IsOrdered)
    (c : QueueCall) :
    ∃ k', k ≤ k' ∧ (q.perform c).2.IsClaimedUpTo k' ∧
      ∀ t, (q.perform c).1.claimed = some t → k < t.id ∧ t.id = k' := by
  cases hclaimed : (q.perform c).1.claimed with
  | none =>
    refine ⟨k, Nat.le_refl k, ?_, by simp⟩
    by_cases hclaim : ∃ now, c = .claim now
    · obtain ⟨now, rfl⟩ := hclaim
      rwa [perform_claim_of_none hclaimed]
    · exact hk.perform (not_exists.mp hclaim)
  | some t =>
    obtain ⟨now, deadline, q', _, hclaim, hafter⟩ := exists_claim_of_perform hclaimed
    obtain ⟨hlt, hk'⟩ := hk.claim hq hclaim
    refine ⟨t.id, Nat.le_of_lt hlt, hafter ▸ hk', fun t' ht' => ?_⟩
    obtain rfl := Option.some.inj ht'
    exact ⟨hlt, rfl⟩

/-- Every operation keeps a queue regular. -/
theorem IsRegular.perform (h : q.IsRegular) (c : QueueCall) : (q.perform c).2.IsRegular := by
  obtain ⟨k, hk⟩ := h.watermark
  obtain ⟨k', _, hk', _⟩ := hk.exists_perform h.ordered c
  exact ⟨h.ordered.perform c, h.guarded.perform h.ordered hk c, k', hk'⟩

/-- Every row of operations keeps a queue regular. -/
theorem IsRegular.after (h : q.IsRegular) (cs : List QueueCall) : (q.after cs).IsRegular := by
  induction cs generalizing q with
  | nil => exact h
  | cons c cs ih => exact ih (h.perform c)

/-! ## What a run hands out -/

/-- What a run hands out is what its first operation hands out and then the rest. -/
theorem claims_cons (q : Queue) (c : QueueCall) (cs : List QueueCall) :
    q.claims (c :: cs) = (q.perform c).1.claimed.toList ++ (q.perform c).2.claims cs := by
  unfold claims
  rw [effects, List.filterMap_cons]
  cases (q.perform c).1.claimed <;> rfl

/-- What a run removes is what its first operation removes and then the rest. -/
theorem removals_cons (q : Queue) (c : QueueCall) (cs : List QueueCall) :
    q.removals (c :: cs) = (q.perform c).1.removed ++ (q.perform c).2.removals cs :=
  List.flatMap_cons

/-- A run hands out tasks above the watermark, in the order of their numbers. -/
theorem claims_above_watermark (hq : q.IsOrdered) {k : TaskId} (hk : q.IsClaimedUpTo k)
    (cs : List QueueCall) : (k :: (q.claims cs).map (·.id)).Pairwise (· < ·) := by
  -- The watermark generalises the number handed out last, also where nothing was.
  induction cs generalizing q k with
  | nil => exact List.pairwise_singleton _ k
  | cons c cs ih =>
    obtain ⟨k', hle, hk', hnext⟩ := hk.exists_perform hq c
    have hrest := ih (hq.perform c) hk'
    have hbelow (id : TaskId) (hid : id ∈ ((q.perform c).2.claims cs).map (·.id)) : k' < id :=
      List.rel_of_pairwise_cons hrest hid
    rw [claims_cons]
    cases hclaimed : (q.perform c).1.claimed with
    | none =>
      exact List.pairwise_cons.mpr
        ⟨fun id hid => Nat.lt_of_le_of_lt hle (hbelow id hid), hrest.of_cons⟩
    | some t =>
      obtain ⟨hlt, rfl⟩ := hnext t hclaimed
      refine List.pairwise_cons.mpr ⟨fun id hid => ?_, hrest⟩
      rcases List.mem_cons.mp hid with rfl | hid
      · exact hlt
      · exact Nat.lt_trans hlt (hbelow id hid)

/-- No number is handed out twice. -/
theorem IsRegular.nodup_claims (h : q.IsRegular) (cs : List QueueCall) :
    ((q.claims cs).map (·.id)).Nodup := by
  obtain ⟨k, hk⟩ := h.watermark
  exact (claims_above_watermark h.ordered hk cs).of_cons.imp Nat.ne_of_lt

end Queue

end Piecework
