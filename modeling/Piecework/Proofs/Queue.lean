import Mathlib.Data.List.Nodup
import Piecework.Queue

/-!
# The entries of a queue

Numbers are given in increasing order and never twice, so a number finds its own
entry and the removals are filters on the entries. A claim changes the deadline of
the first entry without one and nothing else.
-/

namespace Piecework

/-- Entries stand in strictly increasing order of their numbers, all of them given by the queue. -/
structure Queue.IsOrdered (q : Queue) : Prop where
  increasing : q.entries.Pairwise (·.task.id < ·.task.id)
  issued : ∀ e ∈ q.entries, e.task.id ≤ q.lastId

namespace Queue

/-! ## Looking up -/

/-- A found entry is queued under the number that was looked up. -/
theorem mem_of_get? {q : Queue} {id : TaskId} {e : Entry} (h : q.get? id = some e) :
    e ∈ q.entries ∧ e.task.id = id :=
  ⟨List.mem_of_find?_eq_some h, by simpa using List.find?_some h⟩

/-- A number that is not found belongs to no entry. -/
theorem ne_of_get?_eq_none {q : Queue} {id : TaskId} (h : q.get? id = none) :
    ∀ e ∈ q.entries, e.task.id ≠ id := by
  simpa [get?] using h

/-- No number is given twice. -/
theorem IsOrdered.nodup {q : Queue} (hq : q.IsOrdered) : (q.entries.map (·.task.id)).Nodup :=
  List.pairwise_map.mpr (hq.increasing.imp Nat.ne_of_lt)

/-- Entries with one number are one entry. -/
theorem IsOrdered.eq_of_id_eq {q : Queue} (hq : q.IsOrdered) {e e' : Entry}
    (he : e ∈ q.entries) (he' : e' ∈ q.entries) (hid : e.task.id = e'.task.id) : e = e' :=
  List.inj_on_of_nodup_map hq.nodup he he' hid

/-- A number finds its own entry. -/
theorem IsOrdered.get?_eq_some {q : Queue} (hq : q.IsOrdered) {e : Entry} (he : e ∈ q.entries) :
    q.get? e.task.id = some e := by
  cases hfind : q.get? e.task.id with
  | none => exact absurd rfl (ne_of_get?_eq_none hfind e he)
  | some e' =>
    obtain ⟨he', hid⟩ := mem_of_get? hfind
    rw [hq.eq_of_id_eq he' he hid]

/-- Queues in order with the same entries have them in the same row. -/
theorem IsOrdered.entries_eq {q q' : Queue} (hq : q.IsOrdered) (hq' : q'.IsOrdered)
    (hmem : ∀ e, e ∈ q.entries ↔ e ∈ q'.entries) : q.entries = q'.entries := by
  have hperm : q.entries.Perm q'.entries :=
    (List.perm_ext_iff_of_nodup hq.nodup.of_map hq'.nodup.of_map).mpr hmem
  exact List.Perm.eq_of_pairwise (fun e e' _ _ hlt hgt => absurd hgt (Nat.lt_asymm hlt))
    hq.increasing hq'.increasing hperm

/-! ## Removing -/

@[simp] theorem drop_entries (id : TaskId) (how : Retirement) (q : Queue) :
    (q.drop id how).entries = q.entries.filter (·.task.id ≠ id) := rfl

@[simp] theorem drop_lastId (id : TaskId) (how : Retirement) (q : Queue) :
    (q.drop id how).lastId = q.lastId := rfl

/-- Fewer entries under the same last number are still in order. -/
theorem IsOrdered.of_sublist {q q' : Queue} (hq : q.IsOrdered)
    (hentries : q'.entries.Sublist q.entries) (hlast : q'.lastId = q.lastId) : q'.IsOrdered :=
  ⟨hq.increasing.sublist hentries, fun e he => hlast ▸ hq.issued e (hentries.subset he)⟩

/-- Queues in order with the same entries of one kind have them in the same row. -/
theorem IsOrdered.filter_entries_eq {q q' : Queue} (hq : q.IsOrdered) (hq' : q'.IsOrdered)
    {P : Entry → Bool} (hmem : ∀ e, P e = true → (e ∈ q.entries ↔ e ∈ q'.entries)) :
    q.entries.filter P = q'.entries.filter P := by
  have hleft : IsOrdered { q with entries := q.entries.filter P } :=
    hq.of_sublist List.filter_sublist rfl
  have hright : IsOrdered { q' with entries := q'.entries.filter P } :=
    hq'.of_sublist List.filter_sublist rfl
  refine hleft.entries_eq hright fun e => ?_
  simp only [List.mem_filter]
  exact and_congr_left (hmem e)

/-- A queue in order that has got new entries under new numbers has them behind the old ones. -/
theorem IsOrdered.entries_eq_append {q q' : Queue} (hq : q.IsOrdered) (hq' : q'.IsOrdered)
    {new : List Entry} (hnew : new.Sublist q'.entries) (hnumbers : ∀ e ∈ new, q.lastId < e.task.id)
    (hmem : ∀ e, e ∈ q'.entries ↔ e ∈ q.entries ∨ e ∈ new) :
    q'.entries = q.entries ++ new := by
  have happended : IsOrdered { q' with entries := q.entries ++ new } := by
    refine ⟨List.pairwise_append.mpr ⟨hq.increasing, hq'.increasing.sublist hnew, ?_⟩, ?_⟩
    · exact fun e he e' he' => Nat.lt_of_le_of_lt (hq.issued e he) (hnumbers e' he')
    · exact fun e he => hq'.issued e ((hmem e).mpr (List.mem_append.mp he))
  exact hq'.entries_eq happended fun e => (hmem e).trans List.mem_append.symm

/-- Dropping a number keeps the order. -/
theorem IsOrdered.drop {q : Queue} (hq : q.IsOrdered) (id : TaskId) (how : Retirement) :
    (q.drop id how).IsOrdered :=
  hq.of_sublist List.filter_sublist rfl

/-- Completing a row of numbers gives no number. -/
@[simp] theorem completeAll_lastId (ids : List TaskId) (q : Queue) :
    (completeAll ids q).2.lastId = q.lastId := by
  induction ids generalizing q with
  | nil => rfl
  | cons id ids ih =>
    simp only [completeAll, complete]
    cases q.get? id with
    | none => exact ih q
    | some e => exact ih _

/-- Completing a row of numbers keeps the entries with other numbers. -/
theorem completeAll_entries (ids : List TaskId) (q : Queue) :
    (completeAll ids q).2.entries = q.entries.filter (·.task.id ∉ ids) := by
  induction ids generalizing q with
  | nil => simp [completeAll]
  | cons id ids ih =>
    simp only [completeAll, complete]
    cases hfind : q.get? id with
    | none =>
      have hne := ne_of_get?_eq_none hfind
      rw [ih q]
      exact List.filter_congr fun e he => by simp [hne e he]
    | some e =>
      simp only [ih, drop_entries, List.filter_filter]
      exact List.filter_congr fun e _ => by simp [Bool.and_comm]

/-- The entries behind a dropped one are still there, in the same order. -/
theorem IsOrdered.sublist_drop {q : Queue} (hq : q.IsOrdered) {e : Entry} {es : List Entry}
    (hes : (e :: es).Sublist q.entries) (how : Retirement) :
    es.Sublist (q.drop e.task.id how).entries := by
  have hbehind : ∀ e' ∈ es, e'.task.id ≠ e.task.id := fun e' he' =>
    Nat.ne_of_gt (List.rel_of_pairwise_cons (hq.increasing.sublist hes) he')
  have hfilter := (List.sublist_of_cons_sublist hes).filter (fun x : Entry => x.task.id ≠ e.task.id)
  rwa [List.filter_eq_self.mpr (by simpa using hbehind)] at hfilter

/-- Completing the numbers of queued entries returns their tasks. -/
theorem completeAll_tasks {q : Queue} (hq : q.IsOrdered) {es : List Entry}
    (hes : es.Sublist q.entries) :
    (completeAll (es.map (·.task.id)) q).1 = es.map (·.task) := by
  induction es generalizing q with
  | nil => rfl
  | cons e es ih =>
    have he : e ∈ q.entries := hes.subset List.mem_cons_self
    simp only [List.map_cons, completeAll, complete, hq.get?_eq_some he]
    rw [ih (hq.drop _ _) (hq.sublist_drop hes _)]

/-- Completing the numbers of the entries with a property leaves the others. -/
theorem completeAll_filter_entries {q : Queue} (hq : q.IsOrdered) (P : Entry → Bool) :
    (completeAll ((q.entries.filter P).map (·.task.id)) q).2.entries =
      q.entries.filter (! P ·) := by
  rw [completeAll_entries]
  apply List.filter_congr
  intro e he
  have hmem : e.task.id ∈ (q.entries.filter P).map (·.task.id) ↔ P e = true := by
    constructor
    · intro h
      obtain ⟨e', he', hid⟩ := List.mem_map.mp h
      obtain ⟨hqueued, hP⟩ := List.mem_filter.mp he'
      rwa [hq.eq_of_id_eq hqueued he hid] at hP
    · exact fun hP => List.mem_map_of_mem (List.mem_filter.mpr ⟨he, hP⟩)
  cases hP : P e <;> simp [hmem, hP]

/-- Taking the lapsed claims leaves the other entries. -/
theorem takeExpired_entries {q : Queue} (hq : q.IsOrdered) (now : Time) :
    (q.takeExpired now).2.entries = q.entries.filter (! ·.hasLapsed now) :=
  completeAll_filter_entries hq _

/-- Taking the lapsed claims returns their tasks in order. -/
theorem takeExpired_tasks {q : Queue} (hq : q.IsOrdered) (now : Time) :
    (q.takeExpired now).1 = (q.entries.filter (·.hasLapsed now)).map (·.task) :=
  completeAll_tasks hq List.filter_sublist

/-- Discarding an expression leaves the entries of the others. -/
theorem discard_entries {q : Queue} (hq : q.IsOrdered) (expression : ExpressionId) :
    (q.discard expression).2.entries = q.entries.filter (·.task.expression ≠ expression) := by
  refine (completeAll_filter_entries hq _).trans (List.filter_congr fun e _ => ?_)
  simp

/-- What is removed with a property and what is left make up the queue. -/
theorem completeAll_filter_size {q : Queue} (hq : q.IsOrdered) (P : Entry → Bool) :
    (completeAll ((q.entries.filter P).map (·.task.id)) q).1.length +
      (completeAll ((q.entries.filter P).map (·.task.id)) q).2.size = q.size := by
  rw [completeAll_tasks hq List.filter_sublist, List.length_map, size, completeAll_filter_entries hq]
  exact (List.length_eq_length_filter_add P).symm

/-- Without the number of one of its entries a row is shorter by one. -/
theorem length_filter_id_ne {es : List Entry} (hnodup : (es.map (·.task.id)).Nodup) {e : Entry}
    (he : e ∈ es) : (es.filter (·.task.id ≠ e.task.id)).length + 1 = es.length := by
  have hone : es.countP (·.task.id = e.task.id) = 1 := by
    rw [← List.count_eq_one_of_mem hnodup (List.mem_map_of_mem he), List.count, List.countP_map]
    exact List.countP_congr (by simp)
  rw [← List.countP_eq_length_filter,
    List.length_eq_countP_add_countP (·.task.id = e.task.id), hone, Nat.add_comm]
  simp

/-- Dropping the number of an entry removes one entry. -/
theorem drop_size {q : Queue} (hq : q.IsOrdered) {e : Entry} (he : e ∈ q.entries)
    (how : Retirement) : (q.drop e.task.id how).size + 1 = q.size :=
  length_filter_id_ne hq.nodup he

/-- Removing a row of entries keeps the order. -/
theorem IsOrdered.completeAll {q : Queue} (hq : q.IsOrdered) (ids : List TaskId) :
    (completeAll ids q).2.IsOrdered := by
  refine hq.of_sublist ?_ (completeAll_lastId ids q)
  rw [completeAll_entries]
  exact List.filter_sublist

/-! ## Adding and claiming -/

/-- A new entry has the largest number. -/
theorem IsOrdered.add {q : Queue} (hq : q.IsOrdered) (d : Draft) : (q.add d).2.IsOrdered := by
  constructor
  · refine List.pairwise_append.mpr ⟨hq.increasing, List.pairwise_singleton _ _, ?_⟩
    intro e he e' he'
    rw [List.mem_singleton.mp he']
    exact Nat.lt_succ_of_le (hq.issued e he)
  · intro e he
    rcases List.mem_append.mp he with hold | hnew
    · exact Nat.le_succ_of_le (hq.issued e hold)
    · rw [List.mem_singleton.mp hnew]
      exact Nat.le_refl _

/-- A claim is put on the first entry without one, and on nothing else. -/
theorem exists_of_claimFirst {now : Time} {es es' : List Entry} {t : Task} {deadline : Time}
    (h : claimFirst now es = some (t, deadline, es')) :
    ∃ before e behind, es = before ++ e :: behind ∧ (∀ b ∈ before, b.isClaimed) ∧
      e.isClaimed = false ∧ e.task = t ∧ deadline = now + t.claimWindow ∧
      es' = before ++ ⟨t, some deadline⟩ :: behind := by
  induction es generalizing es' with
  | nil => simp [claimFirst] at h
  | cons e es ih =>
    simp only [claimFirst] at h
    split at h
    · next hfree =>
      simp only [Option.some.injEq, Prod.mk.injEq] at h
      obtain ⟨rfl, rfl, rfl⟩ := h
      exact ⟨[], e, es, rfl, by simp, by simp [Entry.isClaimed, hfree], rfl, rfl, rfl⟩
    · next d hheld =>
      split at h
      · contradiction
      · next t' d' rest hrest =>
        simp only [Option.some.injEq, Prod.mk.injEq] at h
        obtain ⟨rfl, rfl, rfl⟩ := h
        obtain ⟨before, f, behind, rfl, hbefore, hf⟩ := ih hrest
        refine ⟨e :: before, f, behind, rfl, ?_, hf.1, hf.2.1, hf.2.2.1, by rw [hf.2.2.2]; rfl⟩
        intro b hb
        rcases List.mem_cons.mp hb with rfl | hb
        · simp [Entry.isClaimed, hheld]
        · exact hbefore b hb

/-- A claim sets the deadline of the first entry without one, and gives no number. -/
theorem exists_of_claim {q q' : Queue} {now deadline : Time} {t : Task}
    (h : q.claim now = some (t, deadline, q')) :
    ∃ before e behind, q.entries = before ++ e :: behind ∧ (∀ b ∈ before, b.isClaimed) ∧
      e.isClaimed = false ∧ e.task = t ∧ q'.entries = before ++ ⟨t, some deadline⟩ :: behind ∧
      q'.lastId = q.lastId := by
  unfold claim at h
  split at h
  · contradiction
  · next hfirst =>
    simp only [Option.some.injEq, Prod.mk.injEq] at h
    obtain ⟨rfl, rfl, rfl⟩ := h
    obtain ⟨before, e, behind, hentries, hbefore, hfree, htask, _, hclaimed⟩ :=
      exists_of_claimFirst hfirst
    exact ⟨before, e, behind, hentries, hbefore, hfree, htask, hclaimed, rfl⟩

/-- A claim is held for the window of its task. -/
theorem deadline_of_claim {q q' : Queue} {now deadline : Time} {t : Task}
    (h : q.claim now = some (t, deadline, q')) : deadline = now + t.claimWindow := by
  unfold claim at h
  split at h
  · contradiction
  · next hfirst =>
    obtain ⟨_, _, _, _, _, _, _, hdeadline, _⟩ := exists_of_claimFirst hfirst
    simp only [Option.some.injEq, Prod.mk.injEq] at h
    obtain ⟨rfl, rfl, _⟩ := h
    exact hdeadline

/-- Nothing is claimed exactly when every entry has a claim. -/
theorem claimFirst_eq_none_iff {now : Time} {es : List Entry} :
    claimFirst now es = none ↔ ∀ e ∈ es, e.isClaimed := by
  induction es with
  | nil => simp [claimFirst]
  | cons e es ih =>
    simp only [claimFirst]
    split
    · next hfree => simp [Entry.isClaimed, hfree]
    · next d hheld =>
      have hclaimed : e.isClaimed = true := by simp [Entry.isClaimed, hheld]
      split
      · next hrest => simpa [hclaimed] using ih.mp hrest
      · next hrest =>
        simp only [reduceCtorEq, List.mem_cons, forall_eq_or_imp, hclaimed, true_and, false_iff]
        exact fun hall => absurd (hrest.symm.trans (ih.mpr hall)) (by simp)

/-- No task can be claimed exactly when every entry has a claim. -/
theorem claim_eq_none_iff (q : Queue) (now : Time) :
    q.claim now = none ↔ ∀ e ∈ q.entries, e.isClaimed := by
  rw [← claimFirst_eq_none_iff, claim]
  cases claimFirst now q.entries <;> simp

/-- A claim keeps the tasks of the entries. -/
theorem claimFirst_tasks {now : Time} {es es' : List Entry} {t : Task} {deadline : Time}
    (h : claimFirst now es = some (t, deadline, es')) : es'.map (·.task) = es.map (·.task) := by
  obtain ⟨before, e, behind, rfl, _, _, rfl, _, rfl⟩ := exists_of_claimFirst h
  simp

/-- Order is a matter of the tasks alone. -/
theorem IsOrdered.of_tasks_eq {q q' : Queue} (hq : q.IsOrdered)
    (htasks : q'.entries.map (·.task) = q.entries.map (·.task)) (hlast : q'.lastId = q.lastId) :
    q'.IsOrdered := by
  constructor
  · have hpairwise : (q.entries.map (·.task)).Pairwise fun t u => t.id < u.id :=
      List.pairwise_map.mpr hq.increasing
    rw [← htasks, List.pairwise_map] at hpairwise
    exact hpairwise
  · intro e he
    have htask : e.task ∈ q.entries.map (·.task) := htasks ▸ List.mem_map_of_mem he
    obtain ⟨e', he', heq⟩ := List.mem_map.mp htask
    rw [hlast, ← heq]
    exact hq.issued e' he'

end Queue

end Piecework
