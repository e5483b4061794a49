import Mathlib.Data.List.Induction
import Piecework.Proofs.Pass

/-!
# The depth of a pass

A pass counts the operands that it has written and keeps the count apart from what it has written.
Whatever it reads, valid or not, the two agree: what has been written is a row of complete operands,
as many as the depth says. So two tokens have been written wherever the depth allows an operator,
and known values that were written last are operands of their own.
-/

namespace Piecework

/-- A row of at least two begins with two. -/
theorem exists_cons_cons {α : Type} {xs : List α} (h : 2 ≤ xs.length) :
    ∃ x y rest, xs = x :: y :: rest := by
  match xs with
  | [] | [_] => contradiction
  | x :: y :: rest => exact ⟨x, y, rest, rfl⟩

namespace Program

variable {p q before behind : Program} {operands : List Program}

/-! ## Counting operands -/

/-- More operands below a program stay below it. -/
theorem operands?_add {n m : Nat} (h : operands? n p = some m) (k : Nat) :
    operands? (n + k) p = some (m + k) := by
  induction p generalizing n with
  | nil =>
    obtain rfl := Option.some.inj h
    rfl
  | cons t p ih =>
    cases t with
    | number v | task id =>
      have hrest := ih h
      rwa [Nat.add_right_comm] at hrest
    | operator op =>
      simp only [operands?] at h ⊢
      split at h
      · contradiction
      · have hrest := ih h
        rw [if_neg (by omega), show n + k - 1 = n - 1 + k by omega]
        exact hrest

/-- The operands of two parts add up. -/
theorem operands?_append_add {n m : Nat} (hp : operands? 0 p = some n)
    (hq : operands? 0 q = some m) : operands? 0 (p ++ q) = some (n + m) := by
  have hshift := operands?_add hq n
  rw [operands?_append, hp, Option.bind_some]
  rwa [Nat.zero_add, Nat.add_comm m n] at hshift

/-- The operands of a part of a program from its start can be counted. -/
theorem exists_operands?_of_prefix {n : Nat} (h : operands? 0 p = some n) (hq : q <+: p) :
    ∃ m, operands? 0 q = some m := by
  obtain ⟨rest, rfl⟩ := hq
  rw [operands?_append] at h
  obtain ⟨m, hm, -⟩ := Option.bind_eq_some_iff.mp h
  exact ⟨m, hm⟩

/-- An operand counts as one. -/
theorem IsOperand.operands?_eq (h : IsOperand q) : operands? 0 q = some 1 := by
  induction h with
  | number v => rfl
  | task id => rfl
  | operation op _ _ hleft hright =>
    rw [operands?_append, operands?_append_add hleft hright]
    rfl

/-- An operand is not empty. -/
theorem IsOperand.ne_nil (h : IsOperand q) : q ≠ [] := by
  cases h <;> simp

/-! ## Rows of operands -/

/-- An operand behind a row of operands. -/
theorem ConsistsOf.concat (h : p.ConsistsOf operands) (hq : IsOperand q) :
    (p ++ q).ConsistsOf (operands ++ [q]) where
  flatten_eq := by rw [List.flatten_append, h.flatten_eq, List.flatten_singleton]
  operand := by
    intro r hr
    rcases List.mem_append.mp hr with hr | hr
    · exact h.operand r hr
    · exact List.mem_singleton.mp hr ▸ hq

/-- An operator makes one operand of the last two. -/
theorem ConsistsOf.operation {left right : Program} (h : p.ConsistsOf (operands ++ [left, right]))
    (op : Operator) :
    ConsistsOf (p ++ [.operator op]) (operands ++ [left ++ right ++ [.operator op]]) where
  flatten_eq := by
    rw [← h.flatten_eq]
    simp
  operand := by
    intro r hr
    rcases List.mem_append.mp hr with hr | hr
    · exact h.operand r (List.mem_append_left _ hr)
    · rw [List.mem_singleton.mp hr]
      exact .operation op (h.operand left (by simp)) (h.operand right (by simp))

/-- There are as many operands as can be counted. -/
theorem ConsistsOf.operands?_eq (h : p.ConsistsOf operands) :
    operands? 0 p = some operands.length := by
  obtain ⟨rfl, hoperand⟩ := h
  induction operands with
  | nil => rfl
  | cons q operands ih =>
    obtain ⟨hq, hrest⟩ := List.forall_mem_cons.mp hoperand
    rw [List.flatten_cons, operands?_append_add hq.operands?_eq (ih hrest), List.length_cons,
      Nat.add_comm]

/-- Every operand has at least one token. -/
theorem ConsistsOf.length_le (h : p.ConsistsOf operands) : operands.length ≤ p.length := by
  obtain ⟨rfl, hoperand⟩ := h
  induction operands with
  | nil => exact Nat.zero_le _
  | cons q operands ih =>
    obtain ⟨hq, hrest⟩ := List.forall_mem_cons.mp hoperand
    have hpos : 0 < q.length := List.length_pos_iff.mpr hq.ne_nil
    have hle := ih hrest
    rw [List.flatten_cons, List.length_append, List.length_cons]
    omega

/-- A program whose operands can be counted consists of that many. -/
theorem exists_consistsOf {n : Nat} (h : operands? 0 p = some n) :
    ∃ operands, p.ConsistsOf operands ∧ operands.length = n := by
  induction p using List.reverseRecOn generalizing n with
  | nil => exact ⟨[], ⟨rfl, nofun⟩, Option.some.inj h⟩
  | append_singleton p t ih =>
    rw [operands?_append] at h
    obtain ⟨m, hm, ht⟩ := Option.bind_eq_some_iff.mp h
    obtain ⟨operands, hp, rfl⟩ := ih hm
    cases t with
    | number v =>
      obtain rfl := Option.some.inj ht
      exact ⟨_, hp.concat (.number v), List.length_append⟩
    | task id =>
      obtain rfl := Option.some.inj ht
      exact ⟨_, hp.concat (.task id), List.length_append⟩
    | operator op =>
      rw [operands?] at ht
      split at ht
      · contradiction
      · next htwo =>
        obtain rfl := Option.some.inj ht
        have hlength : 2 ≤ operands.reverse.length := by
          rw [List.length_reverse]
          exact Nat.not_lt.mp htwo
        obtain ⟨right, left, lower, hlast⟩ := exists_cons_cons hlength
        obtain rfl : operands = lower.reverse ++ [left, right] := by
          simpa using congrArg List.reverse hlast
        exact ⟨_, hp.operation op, by simp⟩

/-- The operands are the postfix programs. -/
theorem isOperand_iff_isPostfix : IsOperand p ↔ p.IsPostfix := by
  refine ⟨IsOperand.operands?_eq, fun h => ?_⟩
  obtain ⟨operands, hp, hone⟩ := exists_consistsOf h
  obtain ⟨q, rfl⟩ := List.length_eq_one_iff.mp hone
  have hq := hp.operand q List.mem_cons_self
  rwa [← hp.flatten_eq, List.flatten_singleton]

/-- A program without operands is empty. -/
theorem eq_nil_of_operands? (h : operands? 0 p = some 0) : p = [] := by
  obtain ⟨operands, hp, hnone⟩ := exists_consistsOf h
  rw [← hp.flatten_eq, List.length_eq_zero_iff.mp hnone, List.flatten_nil]

/-- What stands around an operand makes no larger one if its own operands can be counted. -/
theorem eq_nil_of_isOperand_append (hoperand : IsOperand (before ++ q ++ behind)) (hq : IsOperand q)
    {n : Nat} (hbehind : operands? 0 behind = some n) : before = [] ∧ behind = [] := by
  have hwhole := hoperand.operands?_eq
  obtain ⟨m, hm⟩ := exists_operands?_of_prefix hwhole ⟨q ++ behind, (List.append_assoc _ _ _).symm⟩
  have hsum := operands?_append_add (operands?_append_add hm hq.operands?_eq) hbehind
  have hone : 1 = m + 1 + n := Option.some.inj (hwhole.symm.trans hsum)
  obtain ⟨rfl, rfl⟩ : m = 0 ∧ n = 0 := by omega
  exact ⟨eq_nil_of_operands? hm, eq_nil_of_operands? hbehind⟩

/-- Part of a row of operands is a row of operands. -/
theorem ConsistsOf.upper {lower upper : List Program} (h : p.ConsistsOf (lower ++ q :: upper)) :
    ConsistsOf upper.flatten upper where
  flatten_eq := rfl
  operand := fun r hr => h.operand r (List.mem_append_right _ (List.mem_cons_of_mem _ hr))

/-- A part of a row of operands begins in one of them. -/
theorem ConsistsOf.exists_split (h : ConsistsOf (before ++ behind) operands) (hne : behind ≠ []) :
    ∃ lower left right upper, operands = lower ++ (left ++ right) :: upper ∧
      before = lower.flatten ++ left ∧ right ≠ [] ∧ behind = right ++ upper.flatten := by
  rcases List.flatten_eq_append_iff.mp h.flatten_eq with
    ⟨lower, upper, rfl, rfl, rfl⟩ | ⟨lower, left, t, right, upper, rfl, rfl, rfl⟩
  · cases upper with
    | nil => contradiction
    | cons q upper =>
      have hq : IsOperand q := h.operand q (by simp)
      exact ⟨lower, [], q, upper, rfl, (List.append_nil _).symm, hq.ne_nil, rfl⟩
  · exact ⟨lower, left, t :: right, upper, rfl, rfl, List.cons_ne_nil _ _, rfl⟩

/-- An operand that begins in another one ends there as well. -/
theorem ConsistsOf.exists_rest {right : Program} (h : p.ConsistsOf operands) (hq : IsOperand q)
    (hright : right ≠ []) (heq : q ++ behind = right ++ p) :
    ∃ rest, right = q ++ rest ∧ behind = rest ++ p := by
  rcases List.append_eq_append_iff.mp heq with hinside | ⟨beyond, rfl, hp⟩
  · exact hinside
  · obtain ⟨n, hn⟩ := exists_operands?_of_prefix hq.operands?_eq (List.prefix_append _ _)
    obtain ⟨m, hm⟩ := exists_operands?_of_prefix h.operands?_eq ⟨behind, hp.symm⟩
    have hsum := operands?_append_add hn hm
    have hone : 1 = n + m := Option.some.inj (hq.operands?_eq.symm.trans hsum)
    have hpos : n ≠ 0 := by
      rintro rfl
      exact hright (eq_nil_of_operands? hn)
    obtain rfl : m = 0 := by omega
    obtain rfl := eq_nil_of_operands? hm
    exact ⟨[], by simp, hp.symm⟩

/-- Among the operands that make up a program are exactly those of its parts that are operands and
lie in no larger one. -/
theorem ConsistsOf.isWholeOperand_iff (h : ConsistsOf (before ++ q ++ behind) operands) :
    IsWholeOperand before q behind ↔ ∃ lower upper, operands = lower ++ q :: upper ∧
      lower.flatten = before ∧ upper.flatten = behind := by
  constructor
  · intro hwhole
    have hq : IsOperand q := hwhole.operand
    rw [List.append_assoc] at h
    obtain ⟨lower, left, right, upper, rfl, rfl, hne, heq⟩ := h.exists_split (by simp [hq.ne_nil])
    obtain ⟨rest, rfl, rfl⟩ := h.upper.exists_rest hq hne heq
    have hlarger : IsOperand (left ++ q ++ rest) := h.operand _ (by simp)
    obtain ⟨rfl, rfl⟩ :=
      hwhole.maximal left rest (List.suffix_append _ _) (List.prefix_append _ _) hlarger
    exact ⟨lower, upper, by simp, by simp, by simp⟩
  · rintro ⟨lower, upper, rfl, rfl, rfl⟩
    have hq : IsOperand q := h.operand q (by simp)
    refine ⟨hq, fun left right _ hright hlarger => ?_⟩
    obtain ⟨m, hm⟩ := exists_operands?_of_prefix h.upper.operands?_eq hright
    exact eq_nil_of_isOperand_append hlarger hq hm

/-- A known value at the end of a program is an operand of its own. -/
theorem ConsistsOf.exists_concat_number {v : Int64} (h : ConsistsOf (p ++ [.number v]) operands) :
    ∃ lower, operands = lower ++ [[.number v]] ∧ p.ConsistsOf lower := by
  obtain rfl | ⟨lower, q, rfl⟩ := List.eq_nil_or_concat operands
  · exact absurd h.flatten_eq.symm (by simp)
  rw [List.concat_eq_append] at h ⊢
  have hflatten := h.flatten_eq
  rw [List.flatten_append, List.flatten_singleton] at hflatten
  have hq : IsOperand q := h.operand q (by simp)
  cases hq with
  | number w =>
    obtain ⟨rfl, hlast⟩ := List.append_inj' hflatten rfl
    rw [hlast]
    exact ⟨lower, rfl, rfl, fun r hr => h.operand r (List.mem_append_left _ hr)⟩
  | task id => simp at hflatten
  | operation op _ _ =>
    obtain ⟨-, hlast⟩ := List.append_inj' ((List.append_assoc _ _ _).trans hflatten) rfl
    simp at hlast

end Program

namespace Pass

variable {σ : Type} {sink : Sink σ} {costs : Costs} {expression : ExpressionId} {s s' : Pass σ}
  {read : Program}

/-! ## The pass -/

/-- A row of tokens is read by reading the first and then the others. -/
theorem exists_of_foldlM_cons {t : Token}
    (h : (t :: read).foldlM (Pass.read sink costs expression) s = .ok s') :
    ∃ next, s.read sink costs expression t = .ok next ∧
      read.foldlM (Pass.read sink costs expression) next = .ok s' := by
  rw [List.foldlM_cons] at h
  cases hfirst : s.read sink costs expression t with
  | error e =>
    rw [hfirst] at h
    contradiction
  | ok next =>
    rw [hfirst] at h
    exact ⟨next, rfl, h⟩

/-- Reading one token after the other keeps a pass sound. -/
theorem IsSound.foldlM (hs : s.IsSound)
    (h : read.foldlM (Pass.read sink costs expression) s = .ok s') : s'.IsSound := by
  induction read generalizing s with
  | nil =>
    obtain rfl := Except.ok.inj h
    exact hs
  | cons t read ih =>
    obtain ⟨next, hfirst, hrest⟩ := exists_of_foldlM_cons h
    exact ih (hs.reads (reads_of_read hfirst)) hrest

/-- A pass over a program goes on from where it stands when it has read a part. -/
theorem readAll_append (h : read.foldlM (Pass.read sink costs expression) s = .ok s')
    (rest : Program) :
    readAll sink costs expression s (read ++ rest) = readAll sink costs expression s' rest := by
  induction read generalizing s with
  | nil =>
    obtain rfl := Except.ok.inj h
    rfl
  | cons t read ih =>
    obtain ⟨next, hfirst, hrest⟩ := exists_of_foldlM_cons h
    rw [List.cons_append, readAll, hfirst]
    exact ih hrest

/-- When a pass has read some tokens of a program, valid or not, the rest is read from there. What it
has written then consists of operands, as many as the depth says; they are exactly the parts that are
operands and lie in no larger one. So the depth is at most the number of tokens written, at least two
are there wherever the depth allows an operator, and two known values at the end are the last two
operands. What is written is one operand as a whole if and only if the depth is one. -/
theorem depth_counts_operands {start : σ}
    (h : read.foldlM (Pass.read sink costs expression) ⟨[], 0, [], start⟩ = .ok s) :
    (∀ rest, readAll sink costs expression ⟨[], 0, [], start⟩ (read ++ rest) =
      readAll sink costs expression s rest) ∧
    ∃ operands, Program.ConsistsOf s.written.reverse operands ∧ operands.length = s.depth ∧
      (∀ before q behind, s.written.reverse = before ++ q ++ behind →
        (Program.IsWholeOperand before q behind ↔ ∃ lower upper, operands = lower ++ q :: upper ∧
          lower.flatten = before ∧ upper.flatten = behind)) ∧
      s.depth ≤ s.written.length ∧
      (2 ≤ s.depth → ∃ last other rest, s.written = last :: other :: rest) ∧
      (∀ a b rest, s.written = .number b :: .number a :: rest →
        ∃ lower, operands = lower ++ [[.number a], [.number b]]) ∧
      (s.depth = 1 ↔ Program.IsOperand s.written.reverse) := by
  have hs : s.IsSound := (isSound_start start).foldlM h
  obtain ⟨operands, hwritten, hdepth⟩ := Program.exists_consistsOf hs.depth_eq
  have hle : s.depth ≤ s.written.length := by simpa [hdepth] using hwritten.length_le
  refine ⟨readAll_append h, operands, hwritten, hdepth, ?_, hle, ?_, ?_, ?_⟩
  · intro before q behind hparts
    rw [hparts] at hwritten
    exact hwritten.isWholeOperand_iff
  · exact fun htwo => exists_cons_cons (Nat.le_trans htwo hle)
  · intro a b rest hlast
    have hreverse : s.written.reverse = rest.reverse ++ [.number a] ++ [.number b] := by simp [hlast]
    rw [hreverse] at hwritten
    obtain ⟨upper, rfl, hupper⟩ := hwritten.exists_concat_number
    obtain ⟨lower, rfl, -⟩ := hupper.exists_concat_number
    exact ⟨lower, by simp⟩
  · rw [Program.isOperand_iff_isPostfix, Program.IsPostfix, hs.depth_eq, Option.some_inj]

/-- These tokens are no postfix program, since five operands are left at the end. The last two of them
are known values. -/
theorem depth_counts_operands_of_surplus :
    let sink : Sink Nat := ⟨fun _ n => (n + 1, n + 1)⟩
    let read : Program := [.number 1, .number 2, .operator .add, .number 5, .task 9, .number 3,
      .operator .mul, .number 4, .number 6]
    let written : List Token := [.number 6, .number 4, .operator .mul, .number 3, .task 9, .number 5,
      .task 1]
    let s : Pass Nat := ⟨written, 5, [1], 1⟩
    read.foldlM (Pass.read sink {} 7) ⟨[], 0, [], 0⟩ = .ok s ∧
      readAll sink {} 7 ⟨[], 0, [], 0⟩ (read ++ []) = (s, some .malformed) ∧
      ∃ lower : List Program, lower.length = 3 ∧
        Program.ConsistsOf written.reverse (lower ++ [[.number 4], [.number 6]]) := by
  intro sink read written s
  have hread : read.foldlM (Pass.read sink {} 7) ⟨[], 0, [], 0⟩ = .ok s := rfl
  obtain ⟨hrest, operands, hwritten, hdepth, -, -, -, hvalues, -⟩ := depth_counts_operands hread
  obtain ⟨lower, rfl⟩ := hvalues 4 6 _ rfl
  exact ⟨hread, hrest [], lower, by simpa [s] using hdepth, hwritten⟩

end Pass

end Piecework
