import Mathlib.Data.List.Nodup
import Piecework.Infix.Tree
import Piecework.Proofs.Cut

/-!
# Programs as pictures of a tree

While an expression is worked on, its program still pictures the tree that its text spells: a
number stands for some subtree with this value, and a placeholder for a node over two subtrees with
the values that its task was given. Cutting out a task and putting in a result keep the picture, so
whatever a pass finds in a program, or a worker is asked for, is a node of the tree.
-/

namespace Piecework

namespace Infix.Tree

/-- A tree and all trees inside it. -/
def subtrees : Tree → List Tree
  | literal v => [literal v]
  | node op left right => node op left right :: (left.subtrees ++ right.subtrees)

/-- A tree has a node with an operator over two trees with these values. -/
def HasNode (tree : Tree) (op : Operator) (a b : Int64) : Prop :=
  ∃ left right, node op left right ∈ tree.subtrees ∧ left.value? = some a ∧ right.value? = some b

/-- A tree is one of its subtrees. -/
theorem self_mem_subtrees (t : Tree) : t ∈ t.subtrees := by
  cases t <;> exact List.mem_cons_self

/-- What is inside a subtree is inside the tree. -/
theorem subtrees_subset {t u : Tree} (h : t ∈ u.subtrees) : t.subtrees ⊆ u.subtrees := by
  induction u with
  | literal v =>
    obtain rfl := List.mem_singleton.mp h
    exact List.Subset.refl _
  | node op left right ihleft ihright =>
    rcases List.mem_cons.mp h with rfl | hinside
    · exact List.Subset.refl _
    · refine List.subset_cons_of_subset _ ?_
      rcases List.mem_append.mp hinside with hleft | hright
      · exact List.subset_append_of_subset_left _ (ihleft hleft)
      · exact List.subset_append_of_subset_right _ (ihright hright)

/-- The operands of a node are subtrees of it. -/
theorem operands_mem_subtrees (op : Operator) (left right : Tree) :
    left ∈ (node op left right).subtrees ∧ right ∈ (node op left right).subtrees := by
  simp [subtrees, self_mem_subtrees]

end Infix.Tree

namespace Program

open Infix (Tree)

/-- A program puts trees together on a stack of trees, with the tasks of a row for its
placeholders: a number brings any tree with its value, a placeholder any node over trees with the
values of its task, and an operator joins the two trees on top. -/
inductive Assembles (ts : List Task) : List Tree → Program → List Tree → Prop where
  | nil (s : List Tree) : Assembles ts s [] s
  | number {v : Int64} {t : Tree} {s s' : List Tree} {p : Program} : t.value? = some v →
      Assembles ts (t :: s) p s' → Assembles ts s (.number v :: p) s'
  | task {t : Task} {left right : Tree} {s s' : List Tree} {p : Program} : t ∈ ts →
      left.value? = some t.left → right.value? = some t.right →
      Assembles ts (.node t.operator left right :: s) p s' → Assembles ts s (.task t.id :: p) s'
  | operator {op : Operator} {left right : Tree} {s s' : List Tree} {p : Program} :
      Assembles ts (.node op left right :: s) p s' →
      Assembles ts (right :: left :: s) (.operator op :: p) s'

variable {ts ts' : List Task} {s s' : List Tree} {p q : Program} {tree : Tree}

/-- The program of a tree puts the tree on the stack. -/
theorem Assembles.program_append (h : Assembles ts (tree :: s) p s') :
    Assembles ts s (tree.program ++ p) s' := by
  induction tree generalizing s p with
  | literal v => exact .number rfl h
  | node op left right ihleft ihright =>
    simp only [Tree.program, List.append_assoc]
    exact ihleft (ihright (.operator h))

/-- More tasks to choose from do no harm. -/
theorem Assembles.mono (h : Assembles ts s p s') (hts : ts ⊆ ts') : Assembles ts' s p s' := by
  induction h with
  | nil s => exact .nil s
  | number hv _ ih => exact .number hv ih
  | task ht hleft hright _ ih => exact .task (hts ht) hleft hright ih
  | operator _ ih => exact .operator ih

/-- Each tree is an operand, so the stack has the height that the operand count gives. -/
theorem Assembles.operands?_eq (h : Assembles ts s p s') :
    operands? s.length p = some s'.length := by
  induction h with
  | nil s => rfl
  | number _ _ ih => exact ih
  | task _ _ _ _ ih => exact ih
  | operator _ ih =>
    rw [operands?, if_neg (by simp)]
    exact ih

/-- A program that puts one tree together is postfix. -/
theorem Assembles.isPostfix (h : Assembles ts [] p [tree]) : p.IsPostfix := h.operands?_eq

/-- Trees are put together by the first part and then by the second. -/
theorem assembles_append_iff :
    Assembles ts s (p ++ q) s' ↔ ∃ middle, Assembles ts s p middle ∧ Assembles ts middle q s' := by
  induction p generalizing s with
  | nil =>
    refine ⟨fun h => ⟨s, .nil s, h⟩, ?_⟩
    rintro ⟨middle, hp, hq⟩
    cases hp
    exact hq
  | cons token p ih =>
    constructor
    · intro h
      cases h with
      | number hv h =>
        obtain ⟨middle, hp, hq⟩ := ih.mp h
        exact ⟨middle, .number hv hp, hq⟩
      | task ht hleft hright h =>
        obtain ⟨middle, hp, hq⟩ := ih.mp h
        exact ⟨middle, .task ht hleft hright hp, hq⟩
      | operator h =>
        obtain ⟨middle, hp, hq⟩ := ih.mp h
        exact ⟨middle, .operator hp, hq⟩
    · rintro ⟨middle, hp, hq⟩
      cases hp with
      | number hv hp => exact .number hv (ih.mpr ⟨middle, hp, hq⟩)
      | task ht hleft hright hp => exact .task ht hleft hright (ih.mpr ⟨middle, hp, hq⟩)
      | operator hp => exact .operator (ih.mpr ⟨middle, hp, hq⟩)

/-! ## What keeps the picture -/

/-- The placeholder of a task pictures the node that it was cut out for. -/
theorem Assembles.cut {t : Task} (h : Assembles ts s p s') (hcut : Cut t p q) (ht : t ∈ ts) :
    Assembles ts s q s' := by
  obtain ⟨before, behind⟩ := hcut
  obtain ⟨middle, hbefore, hwindow⟩ := assembles_append_iff.mp h
  cases hwindow with
  | number hleft hwindow =>
    cases hwindow with
    | number hright hwindow =>
      cases hwindow with
      | operator hbehind =>
        exact assembles_append_iff.mpr ⟨middle, hbefore, .task ht hleft hright hbehind⟩

/-- Cutting out tasks of the row keeps the picture. -/
theorem Assembles.cuts {created : List Task} (h : Assembles ts s p s') (hcuts : Cuts created p q)
    (hcreated : created ⊆ ts) : Assembles ts s q s' := by
  induction hcuts with
  | nil p => exact h
  | cons hcut _ ih =>
    obtain ⟨hfirst, hrest⟩ := List.cons_subset.mp hcreated
    exact ih (h.cut hcut hfirst) hrest

/-- The result of a task pictures the node that its placeholder pictured. -/
theorem Assembles.substitute {t : Task} {v : Int64} (h : Assembles ts s p s')
    (hnodup : (ts.map (·.id)).Nodup) (ht : t ∈ ts)
    (hv : t.operator.apply t.left t.right = some v) :
    Assembles (ts.filter (·.id ≠ t.id)) s (p.substitute t.id v) s' := by
  induction h with
  | nil s => exact .nil s
  | number hw _ ih => exact .number hw ih
  | @task u left right s s' p hu hleft hright _ ih =>
    rw [substitute_cons]
    by_cases hid : u.id = t.id
    · obtain rfl := List.inj_on_of_nodup_map hnodup hu ht hid
      rw [if_pos rfl]
      exact .number (by simp [Tree.value?, hleft, hright, hv]) ih
    · rw [if_neg (by simpa using hid)]
      exact .task (List.mem_filter.mpr ⟨hu, by simpa using hid⟩) hleft hright ih
  | operator _ ih => exact .operator ih

/-! ## What is in the picture -/

/-- A tree on the stack becomes part of the trees that are put together. -/
theorem Assembles.exists_mem_subtrees (h : Assembles ts s p s') {t : Tree} (ht : t ∈ s) :
    ∃ t' ∈ s', t ∈ t'.subtrees := by
  induction h generalizing t with
  | nil s => exact ⟨t, ht, t.self_mem_subtrees⟩
  | number _ _ ih => exact ih (List.mem_cons_of_mem _ ht)
  | task _ _ _ _ ih => exact ih (List.mem_cons_of_mem _ ht)
  | @operator op left right s s' p _ ih =>
    have hoperand (hop : t ∈ (Infix.Tree.node op left right).subtrees) :
        ∃ t' ∈ s', t ∈ t'.subtrees := by
      obtain ⟨t', ht', hnode⟩ := ih List.mem_cons_self
      exact ⟨t', ht', Tree.subtrees_subset hnode hop⟩
    obtain ⟨hleft, hright⟩ := Tree.operands_mem_subtrees op left right
    rcases List.mem_cons.mp ht with rfl | ht
    · exact hoperand hright
    · rcases List.mem_cons.mp ht with rfl | ht
      · exact hoperand hleft
      · exact ih (List.mem_cons_of_mem _ ht)

/-- A node on top of the stack is a node of the tree that is put together. -/
theorem Assembles.hasNode_of_cons {op : Operator} {left right : Tree} {a b : Int64}
    (h : Assembles ts (.node op left right :: s) p [tree]) (hleft : left.value? = some a)
    (hright : right.value? = some b) : tree.HasNode op a b := by
  obtain ⟨t, ht, hnode⟩ := h.exists_mem_subtrees List.mem_cons_self
  obtain rfl := List.mem_singleton.mp ht
  exact ⟨left, right, hnode, hleft, hright⟩

/-- An operator on two known values is a node of the tree. -/
theorem Assembles.hasNode_of_window {before behind : Program} {op : Operator} {a b : Int64}
    (h : Assembles ts s (before ++ .number a :: .number b :: .operator op :: behind) [tree]) :
    tree.HasNode op a b := by
  obtain ⟨middle, _, hwindow⟩ := assembles_append_iff.mp h
  cases hwindow with
  | number hleft hwindow =>
    cases hwindow with
    | number hright hwindow =>
      cases hwindow with
      | operator hbehind => exact hbehind.hasNode_of_cons hleft hright

/-- A placeholder belongs to a task of the row, which is a node of the tree. -/
theorem Assembles.exists_hasNode_of_task {id : TaskId} (h : Assembles ts s p [tree])
    (hid : id ∈ p.tasks) : ∃ t ∈ ts, t.id = id ∧ tree.HasNode t.operator t.left t.right := by
  obtain ⟨before, behind, rfl⟩ := List.append_of_mem (mem_tasks_iff.mp hid)
  obtain ⟨middle, _, hplaceholder⟩ := assembles_append_iff.mp h
  cases hplaceholder with
  | @task t _ _ _ _ _ ht hleft hright hbehind =>
    exact ⟨t, ht, rfl, hbehind.hasNode_of_cons hleft hright⟩

end Program

end Piecework
