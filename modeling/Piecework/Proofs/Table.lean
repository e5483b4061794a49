import Mathlib.Data.List.Nodup
import Piecework.Expression

/-!
# Entries of the table

Expressions are numbered from one without gaps and are never removed. A change
of one expression leaves the others as they are, and an expression that has
finished keeps its status.
-/

namespace Piecework

namespace Expression

@[simp] theorem advance_id (p : Program) (e : Expression) : (e.advance p).id = e.id := by
  unfold advance
  split <;> rfl

@[simp] theorem settle_id (s : Status) (e : Expression) : (e.settle s).id = e.id := by
  unfold settle
  split <;> rfl

@[simp] theorem complete_id (v : Int64) (e : Expression) : (e.complete v).id = e.id := settle_id _ e

@[simp] theorem fail_id (reason : String) (e : Expression) : (e.fail reason).id = e.id :=
  settle_id _ e

@[simp] theorem substitute_id (id : TaskId) (v : Int64) (e : Expression) :
    (e.substitute id v).id = e.id := rfl

/-- Advancing a program keeps the status. -/
theorem advance_status (p : Program) (e : Expression) : (e.advance p).status = e.status := by
  unfold advance
  split <;> rfl

/-- A finished expression stays as it is. -/
theorem settle_of_isFinal {e : Expression} (h : e.isFinal = true) (s : Status) :
    e.settle s = e := if_pos h

/-- An open expression takes the new status. -/
theorem settle_of_open {e : Expression} (h : e.isFinal = false) (s : Status) :
    e.settle s = { e with status := s } := if_neg (by simp [h])

/-- An open expression takes the new program. -/
theorem advance_of_open {e : Expression} (h : e.isFinal = false) (p : Program) :
    e.advance p = { e with program := p } := if_neg (by simp [h])

/-- Open expressions are those being processed. -/
theorem isFinal_eq_false_iff {e : Expression} : e.isFinal = false ↔ e.status = .processing := by
  unfold isFinal Status.isFinal
  cases e.status <;> simp

/-- A failed expression has finished. -/
theorem isFinal_fail (reason : String) (e : Expression) : (e.fail reason).isFinal = true := by
  cases h : e.isFinal with
  | true => rw [fail, settle_of_isFinal h, h]
  | false => rw [fail, settle_of_open h]; rfl

end Expression

/-- The expressions of a table are numbered from one in order. -/
def Table.IsNumbered (t : Table) : Prop := t.expressions.map (·.id) = List.range' 1 t.lastId

namespace Table

/-- The numbers of a table increase. -/
theorem IsNumbered.increasing {t : Table} (h : t.IsNumbered) :
    t.expressions.Pairwise (·.id < ·.id) := by
  have hrange : (List.range' 1 t.lastId).Pairwise (· < ·) := List.pairwise_lt_range'
  rwa [← h, List.pairwise_map] at hrange

/-- A new table is numbered. -/
theorem isNumbered_empty : IsNumbered {} := rfl

/-- A new expression gets the next number. -/
theorem IsNumbered.insert {t : Table} (h : t.IsNumbered) (owner : Nat) (text : String)
    (p : Program) : (t.insert owner text p).2.IsNumbered := by
  unfold IsNumbered at h ⊢
  simp [Table.insert, h, List.range'_concat, Nat.add_comm]

/-- Two tables hold expressions under the same numbers. -/
structure SameNumbers (t t' : Table) : Prop where
  ids_eq : t'.expressions.map (·.id) = t.expressions.map (·.id)
  lastId_eq : t'.lastId = t.lastId

/-- A table with the numbers of a numbered one is numbered. -/
theorem SameNumbers.isNumbered {t t' : Table} (h : t.SameNumbers t') (ht : t.IsNumbered) :
    t'.IsNumbered := by
  unfold IsNumbered
  rw [h.ids_eq, h.lastId_eq]
  exact ht

/-- Tables with the same numbers have as many expressions. -/
theorem SameNumbers.size_eq {t t' : Table} (h : t.SameNumbers t') : t'.size = t.size := by
  have hlength := congrArg List.length h.ids_eq
  rwa [List.length_map, List.length_map] at hlength

/-- Changing an expression keeps the numbers. -/
theorem sameNumbers_modify (t : Table) (id : ExpressionId) {f : Expression → Expression}
    (hf : ∀ e, (f e).id = e.id) : t.SameNumbers (t.modify id f) := by
  refine ⟨?_, rfl⟩
  rw [modify, List.map_map]
  apply List.map_congr_left
  intro e _
  simp only [Function.comp_apply]
  split
  · exact hf e
  · rfl

/-- A found expression stands in the table under its number. -/
theorem mem_of_get? {t : Table} {id : ExpressionId} {e : Expression} (h : t.get? id = some e) :
    e ∈ t.expressions ∧ e.id = id :=
  ⟨List.mem_of_find?_eq_some h, by simpa using List.find?_some h⟩

/-- A number finds its own expression. -/
theorem IsNumbered.get?_eq_some {t : Table} (h : t.IsNumbered) {e : Expression}
    (he : e ∈ t.expressions) : t.get? e.id = some e := by
  cases hfind : t.get? e.id with
  | none => simpa using List.find?_eq_none.mp hfind e he
  | some e' =>
    obtain ⟨he', hid⟩ := mem_of_get? hfind
    have hnodup : (t.expressions.map (·.id)).Nodup := h ▸ List.nodup_range'
    rw [List.inj_on_of_nodup_map hnodup he' he hid]

/-- The expressions of a numbered table are those that are found. -/
theorem IsNumbered.mem_iff {t : Table} (h : t.IsNumbered) {e : Expression} :
    e ∈ t.expressions ↔ t.get? e.id = some e :=
  ⟨h.get?_eq_some, fun hget => (mem_of_get? hget).1⟩

/-- Numbered tables with the same expressions under some numbers have them in the same row. -/
theorem IsNumbered.filter_eq {t t' : Table} (h : t.IsNumbered) (h' : t'.IsNumbered)
    {P : ExpressionId → Bool} (hget : ∀ x, P x = true → t.get? x = t'.get? x) :
    t.expressions.filter (P ·.id) = t'.expressions.filter (P ·.id) := by
  have hnodup {t : Table} (h : t.IsNumbered) : (t.expressions.filter (P ·.id)).Nodup := by
    have hids : (t.expressions.map (·.id)).Nodup := h ▸ List.nodup_range'
    exact hids.of_map.filter _
  have hperm : (t.expressions.filter (P ·.id)).Perm (t'.expressions.filter (P ·.id)) := by
    refine (List.perm_ext_iff_of_nodup (hnodup h) (hnodup h')).mpr fun e => ?_
    rw [List.mem_filter, List.mem_filter, h.mem_iff, h'.mem_iff]
    exact and_congr_left fun hP => by rw [hget e.id hP]
  exact List.Perm.eq_of_pairwise (fun e e' _ _ hlt hgt => absurd hgt (Nat.lt_asymm hlt))
    (h.increasing.filter _) (h'.increasing.filter _) hperm

/-- A number that was not given finds nothing. -/
theorem IsNumbered.get?_eq_none {t : Table} (h : t.IsNumbered) {id : ExpressionId}
    (hid : t.lastId < id) : t.get? id = none := by
  refine List.find?_eq_none.mpr fun e he => ?_
  have hrange : e.id ∈ List.range' 1 t.lastId := h ▸ List.mem_map_of_mem he
  have hle : e.id < 1 + t.lastId := (List.mem_range'_1.mp hrange).2
  have hne : e.id ≠ id := by lia
  simpa using hne

/-- A change is seen under its number only. -/
theorem get?_modify (t : Table) (id id' : ExpressionId) {f : Expression → Expression}
    (hf : ∀ e, (f e).id = e.id) :
    (t.modify id f).get? id' = (t.get? id').map fun e => if id' = id then f e else e := by
  have hkeep : ∀ e : Expression, (if e.id = id then f e else e).id = e.id := by
    intro e
    split
    · exact hf e
    · rfl
  simp only [get?, modify, List.find?_map, Function.comp_def, hkeep]
  cases hfind : t.expressions.find? (·.id = id') with
  | none => rfl
  | some e =>
    have hid : e.id = id' := by simpa using List.find?_some hfind
    simp [hid]

/-- A change of a found expression replaces it where it stands. -/
theorem IsNumbered.exists_split {t : Table} (h : t.IsNumbered) {id : ExpressionId}
    {e : Expression} (hget : t.get? id = some e) :
    ∃ before behind, t.expressions = before ++ e :: behind ∧
      ∀ f, (t.modify id f).expressions = before ++ f e :: behind := by
  obtain ⟨hmem, rfl⟩ := mem_of_get? hget
  obtain ⟨before, behind, hsplit⟩ := List.append_of_mem hmem
  have hnodup : (t.expressions.map (·.id)).Nodup := h ▸ List.nodup_range'
  simp only [hsplit, List.map_append, List.map_cons, List.nodup_append, List.nodup_cons,
    List.mem_map, not_exists, not_and] at hnodup
  obtain ⟨_, ⟨hbehind, _⟩, hbefore⟩ := hnodup
  have hkept {es : List Expression} (f : Expression → Expression) (hne : ∀ e' ∈ es, e'.id ≠ e.id) :
      es.map (fun e' => if e'.id = e.id then f e' else e') = es :=
    (List.map_congr_left fun e' he' => if_neg (hne e' he')).trans (List.map_id es)
  refine ⟨before, behind, hsplit, fun f => ?_⟩
  rw [modify, hsplit, List.map_append, List.map_cons, if_pos rfl, hkept f hbehind, hkept f]
  exact fun e' he' => hbefore e'.id ⟨e', he', rfl⟩ e.id List.mem_cons_self

/-- A numbered table is made up of what is found under its numbers. -/
theorem IsNumbered.expressions_eq {t : Table} (h : t.IsNumbered) :
    t.expressions = (List.range' 1 t.lastId).filterMap t.get? := by
  rw [← h, List.filterMap_map]
  exact ((List.filterMap_congr fun e he => h.get?_eq_some he).trans List.filterMap_some).symm

/-- A numbered table that has got one more number has its expression behind the old ones. -/
theorem IsNumbered.expressions_eq_append {t t' : Table} (h : t.IsNumbered) (h' : t'.IsNumbered)
    (hlast : t'.lastId = t.lastId + 1) (hget : ∀ id, id ≠ t.lastId + 1 → t'.get? id = t.get? id)
    {e : Expression} (he : t'.get? (t.lastId + 1) = some e) :
    t'.expressions = t.expressions ++ [e] := by
  rw [h'.expressions_eq, h.expressions_eq, hlast, List.range'_concat, List.filterMap_append]
  congr 1
  · refine List.filterMap_congr fun id hid => hget id ?_
    have hlt := (List.mem_range'_1.mp hid).2
    lia
  · simp [Nat.add_comm 1, he]

/-- A numbered table in which each number finds its old expression changed has its row changed. -/
theorem IsNumbered.expressions_eq_map {t t' : Table} (h : t.IsNumbered) (h' : t'.IsNumbered)
    (hlast : t'.lastId = t.lastId) {f : Expression → Expression}
    (hget : ∀ id, t'.get? id = (t.get? id).map f) : t'.expressions = t.expressions.map f := by
  rw [h'.expressions_eq, h.expressions_eq, hlast, List.map_filterMap]
  exact List.filterMap_congr fun id _ => hget id

/-- Numbered tables with the same expressions under the same numbers are the same. -/
theorem IsNumbered.eq_of_get?_eq {t t' : Table} (h : t.IsNumbered) (h' : t'.IsNumbered)
    (hlast : t.lastId = t'.lastId) (hget : ∀ id, t.get? id = t'.get? id) : t = t' := by
  have hexpressions : t.expressions = t'.expressions := by
    rw [h.expressions_eq, h'.expressions_eq, hlast, funext hget]
  cases t
  cases t'
  simp_all

/-- A new expression is found under the next number, and the others as before. -/
theorem IsNumbered.get?_insert {t : Table} (h : t.IsNumbered) (owner : Nat) (text : String)
    (p : Program) (id : ExpressionId) :
    (t.insert owner text p).2.get? id =
      if id = t.lastId + 1 then some ⟨t.lastId + 1, owner, text, p, .processing⟩ else t.get? id := by
  simp only [get?, Table.insert, List.find?_append]
  split
  · next hid =>
    subst hid
    have hnone : t.expressions.find? (·.id = t.lastId + 1) = none :=
      h.get?_eq_none (Nat.lt_succ_self _)
    simp [hnone]
  · next hid =>
    simp [Ne.symm hid]

end Table

end Piecework
