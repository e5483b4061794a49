import Piecework.Proofs.Rewriting

/-!
# How a pass ends, read off the program

A pass stops at the first operator that lacks operands or divides a known value by a known zero,
and otherwise counts what is left at the end. All of this can be seen in the program, so each
outcome has its own condition on the program, whatever the sink answers, and the four conditions
exclude each other.
-/

namespace Piecework

namespace Program

/-! ## Operands -/

/-- A count of operands that breaks off does so at an operator that lacks them. -/
theorem exists_of_operands?_eq_none {p : Program} {n : Nat} (h : operands? n p = none) :
    ∃ (before : Program) (op : Operator) (behind : Program) (m : Nat),
      p = before ++ .operator op :: behind ∧ operands? n before = some m ∧ m < 2 := by
  induction p generalizing n with
  | nil => contradiction
  | cons t p ih =>
    cases t with
    | number v =>
      obtain ⟨before, op, behind, m, rfl, hm, hlow⟩ := ih h
      exact ⟨.number v :: before, op, behind, m, rfl, hm, hlow⟩
    | task id =>
      obtain ⟨before, op, behind, m, rfl, hm, hlow⟩ := ih h
      exact ⟨.task id :: before, op, behind, m, rfl, hm, hlow⟩
    | operator op =>
      by_cases hlow : n < 2
      · exact ⟨[], op, p, n, rfl, rfl, hlow⟩
      · rw [operands?, if_neg hlow] at h
        obtain ⟨before, op', behind, m, rfl, hm, hlow'⟩ := ih h
        exact ⟨.operator op :: before, op', behind, m, rfl, by rwa [operands?, if_neg hlow], hlow'⟩

/-- The operands cannot be counted exactly when some operator lacks operands. -/
theorem operands?_eq_none_iff {p : Program} : operands? 0 p = none ↔ p.IsStarved := by
  constructor
  · exact exists_of_operands?_eq_none
  · rintro ⟨before, op, behind, n, rfl, hn, hlow⟩
    rw [operands?_append, hn, Option.bind_some, operands?, if_pos hlow]

/-- The operands can be counted exactly when no operator lacks operands. -/
theorem exists_operands?_iff {p : Program} : (∃ n, operands? 0 p = some n) ↔ ¬ p.IsStarved := by
  rw [← operands?_eq_none_iff, ← Option.isSome_iff_exists, Option.isSome_iff_ne_none]

/-- What follows does not feed an operator that lacks operands. -/
theorem IsStarved.append {p : Program} (h : p.IsStarved) (q : Program) : IsStarved (p ++ q) := by
  obtain ⟨before, op, behind, n, rfl, hn, hlow⟩ := h
  exact ⟨before, op, behind ++ q, n, by simp, hn, hlow⟩

/-- A postfix program of more than one token has at least three. -/
theorem IsPostfix.three_le_length {p : Program} (h : p.IsPostfix) (hlength : 2 ≤ p.length) :
    3 ≤ p.length := by
  match p with
  | [] | [_] => contradiction
  | _ :: _ :: _ :: _ => exact Nat.le_add_left 3 _
  | [t, t'] =>
    cases t <;> cases t' <;> simp [IsPostfix, operands?] at h

end Program

namespace Pass

variable {σ : Type} {sink : Sink σ} {costs : Costs} {expression : ExpressionId}

/-- A pass that gets as far as a division of a known value by a known zero ends with this reason,
there or before. -/
theorem readAll_of_division {s : Pass σ} {before : Program} {n : Nat}
    (h : Program.operands? s.depth before = some n) (a : Int64) (behind : Program) :
    (readAll sink costs expression s
      (before ++ .number a :: .number 0 :: .operator .div :: behind)).2 = some .divisionByZero := by
  induction before generalizing s with
  | nil =>
    have hdepth : ¬ s.depth + 1 + 1 < 2 := Nat.not_lt.mpr (Nat.le_add_left 2 _)
    simp [readAll, read, hdepth]
  | cons t before ih =>
    rw [List.cons_append, readAll]
    cases hread : s.read sink costs expression t with
    | error e =>
      cases refuses_of_read hread with
      | missing hlow => simp [Program.operands?, hlow] at h
      | division _ => rfl
    | ok s' =>
      apply ih
      cases reads_of_read hread with
      | operand hoperand =>
        cases t with
        | operator op => exact absurd rfl (hoperand op)
        | number v => exact h
        | task id => exact h
      | waiting htwo _ => rwa [Program.operands?, if_neg (Nat.not_lt.mpr htwo)] at h
      | cut htwo _ _ _ => rwa [Program.operands?, if_neg (Nat.not_lt.mpr htwo)] at h

/-- What a pass has read has no division of a known value by a known zero. -/
theorem Follows.not_division {read : Program} {s : Pass (List Task × σ)}
    (h : s.Follows costs expression read) (hcut : ∀ t ∈ s.sink.1, t.IsCutFrom costs expression)
    (a : Int64) : ¬ [.number a, .number 0, .operator .div] <:+: read := by
  intro hwindow
  have hdraft : ⟨expression, .div, a, 0, costs.cost .div⟩ ∈ read.drafts costs expression :=
    List.mem_map.mpr ⟨_, Program.mem_windows_iff.mpr hwindow, rfl⟩
  rw [← h.drafts_eq] at hdraft
  obtain ⟨t, ht, heq⟩ := List.mem_map.mp hdraft
  exact (hcut t ht).right_ne_zero (congrArg Draft.operator heq) (congrArg Draft.right heq)

end Pass

namespace Program

variable {σ : Type}

/-! ## Conditions -/

/-- A division of a known value by a known zero stands in the program. -/
theorem DividesByZero.exists_window {p : Program} (h : p.DividesByZero) :
    ∃ a, [.number a, .number 0, .operator .div] <:+: p := by
  obtain ⟨before, a, behind, rfl, -⟩ := h
  exact ⟨a, before, behind, by simp⟩

/-- A division of known values has three tokens. -/
theorem DividesByZero.three_le_length {p : Program} (h : p.DividesByZero) : 3 ≤ p.length := by
  obtain ⟨a, hwindow⟩ := h.exists_window
  exact hwindow.length_le

/-- A malformed program has no division by zero before all operators that lack operands. -/
theorem IsMalformed.not_dividesByZero {p : Program} (h : p.IsMalformed) : ¬ p.DividesByZero := by
  intro hzero
  have hlength := hzero.three_le_length
  rcases h with rfl | ⟨id, rfl⟩ | ⟨op, rfl⟩ | ⟨-, hnot, -⟩
  · contradiction
  · contradiction
  · contradiction
  · exact hnot hzero

/-- A malformed program of several tokens is not postfix. -/
theorem IsMalformed.not_isPostfix {p : Program} (h : p.IsMalformed) (hlength : 2 ≤ p.length) :
    ¬ p.IsPostfix := by
  intro hpost
  rcases h with rfl | ⟨id, rfl⟩ | ⟨op, rfl⟩ | ⟨-, -, hstarved | ⟨n, hn, hne⟩⟩
  · contradiction
  · contradiction
  · contradiction
  · exact exists_operands?_iff.mp ⟨1, hpost⟩ hstarved
  · exact hne (Option.some.inj (hn.symm.trans hpost))

/-! ## Outcomes -/

/-- A failed pass returns the program as it was. -/
theorem Reduces.program_eq {sink : Sink σ} {p : Program} {s : σ} {created : List Task}
    {r : Reduction × σ} (h : Reduces sink p s created r) {e : ProgramError}
    (he : r.1.outcome = .failed e) : r.1.program = p := by
  cases h with
  | pending _ _ _ _ _ => contradiction
  | completed _ | divided _ _ | malformed _ _ _ => rfl

/-- A pass ends with a division by zero when one comes before all operators that lack operands. -/
theorem DividesByZero.outcome_eq {p : Program} (h : p.DividesByZero) (sink : Sink σ) (costs : Costs)
    (expression : ExpressionId) (s : σ) :
    (p.reduce sink costs expression s).1.outcome = .failed .divisionByZero := by
  have hlength : 2 ≤ p.length := Nat.le_of_succ_le h.three_le_length
  obtain ⟨before, a, behind, rfl, hfed⟩ := h
  obtain ⟨n, hn⟩ := exists_operands?_iff.mpr hfed
  have hstop : (Pass.readAll sink costs expression ⟨[], 0, [], s⟩
      (before ++ .number a :: .number 0 :: .operator .div :: behind)).2 = some .divisionByZero :=
    Pass.readAll_of_division hn a behind
  rw [reduce_eq_readAll _ _ _ hlength]
  generalize Pass.readAll sink costs expression ⟨[], 0, [], s⟩ _ = r at hstop ⊢
  obtain ⟨last, e⟩ := r
  obtain rfl : e = some .divisionByZero := hstop
  rfl

/-- How a pass over several tokens can end, and what each end says about the program. -/
theorem outcome_cases_of_two_le (sink : Sink σ) (costs : Costs) (expression : ExpressionId)
    {p : Program} (hlength : 2 ≤ p.length) (s : σ) :
    (p.DividesByZero ∧ (p.reduce sink costs expression s).1.outcome = .failed .divisionByZero) ∨
      (p.IsMalformed ∧ (p.reduce sink costs expression s).1.outcome = .failed .malformed) ∨
      ((p.IsPostfix ∧ ∀ a, ¬ [.number a, .number 0, .operator .div] <:+: p) ∧
        (p.reduce sink costs expression s).1.outcome = .pending) := by
  by_cases hzero : p.DividesByZero
  · exact .inl ⟨hzero, hzero.outcome_eq sink costs expression s⟩
  obtain ⟨hcut, -⟩ := reduces_created sink costs expression p s
  obtain ⟨done, rest, last, e, hp, hfollows, hstops, hcreated, hr⟩ :=
    exists_follows sink costs expression hlength s
  rw [hr]
  right
  cases hstops with
  | complete hdepth =>
    obtain rfl : done = p := (hp.trans (List.append_nil done)).symm
    rw [← hcreated] at hcut
    have hpost : done.IsPostfix := hfollows.depth_eq.trans (congrArg some hdepth)
    exact .inr ⟨⟨hpost, hfollows.not_division hcut⟩, rfl⟩
  | surplus hdepth =>
    obtain rfl : done = p := (hp.trans (List.append_nil done)).symm
    have hsurplus : ∃ n, operands? 0 done = some n ∧ n ≠ 1 := ⟨_, hfollows.depth_eq, hdepth⟩
    exact .inl ⟨.inr (.inr (.inr ⟨hlength, hzero, .inr hsurplus⟩)), rfl⟩
  | refused hrefuses =>
    cases hrefuses with
    | missing hlow =>
      have hstarved : p.IsStarved := ⟨done, _, _, _, hp, hfollows.depth_eq, hlow⟩
      exact .inl ⟨.inr (.inr (.inr ⟨hlength, hzero, .inl hstarved⟩)), rfl⟩
    | division hwritten =>
      -- The two values were read last, so this would be a division in the program itself.
      obtain ⟨before, rfl⟩ := hfollows.exists_of_written hwritten
      have hfed : ¬ before.IsStarved := fun hstarved =>
        exists_operands?_iff.mp ⟨_, hfollows.depth_eq⟩ (hstarved.append _)
      exact absurd ⟨before, _, _, by simpa using hp, hfed⟩ hzero

/-- How a pass over any program can end, and what each end says about the program. -/
theorem outcome_cases (sink : Sink σ) (costs : Costs) (expression : ExpressionId) (p : Program)
    (s : σ) :
    (∃ v, p = [.number v] ∧ (p.reduce sink costs expression s).1.outcome = .completed v) ∨
      (p.DividesByZero ∧ (p.reduce sink costs expression s).1.outcome = .failed .divisionByZero) ∨
      (p.IsMalformed ∧ (p.reduce sink costs expression s).1.outcome = .failed .malformed) ∨
      ((p.IsPostfix ∧ 3 ≤ p.length ∧ ∀ a, ¬ [.number a, .number 0, .operator .div] <:+: p) ∧
        (p.reduce sink costs expression s).1.outcome = .pending) := by
  match p with
  | [] => exact .inr (.inr (.inl ⟨.inl rfl, rfl⟩))
  | [.number v] => exact .inl ⟨v, rfl, rfl⟩
  | [.task id] => exact .inr (.inr (.inl ⟨.inr (.inl ⟨id, rfl⟩), rfl⟩))
  | [.operator op] => exact .inr (.inr (.inl ⟨.inr (.inr (.inl ⟨op, rfl⟩)), rfl⟩))
  | t :: t' :: p =>
    have hlength : 2 ≤ (t :: t' :: p).length := Nat.le_add_left 2 _
    rcases outcome_cases_of_two_le sink costs expression hlength s with
      hzero | hbad | ⟨⟨hpost, hnone⟩, hr⟩
    · exact .inr (.inl hzero)
    · exact .inr (.inr (.inl hbad))
    · exact .inr (.inr (.inr ⟨⟨hpost, hpost.three_le_length hlength, hnone⟩, hr⟩))

/-- How a pass ends can be read off the program, whatever its sink answers. It completes a number
that stands alone. It fails by a division by zero when a known value is divided by a known zero and
no operator before that lacks operands, and as malformed when the program is malformed and no such
division comes first. It leaves work pending exactly in the other cases: for postfix programs of at
least three tokens without such a division. A failed pass returns the program as it was, and every
pass lists the numbers that its sink gave out, in order. -/
theorem outcome_iff (sink : Sink σ) (costs : Costs) (expression : ExpressionId) (p : Program)
    (s : σ) :
    let r := (p.reduce sink costs expression s).1
    (∀ v, r.outcome = .completed v ↔ p = [.number v]) ∧
      (r.outcome = .failed .divisionByZero ↔ p.DividesByZero) ∧
      (r.outcome = .failed .malformed ↔ p.IsMalformed) ∧
      (r.outcome = .pending ↔
        p.IsPostfix ∧ 3 ≤ p.length ∧ ∀ a, ¬ [.number a, .number 0, .operator .div] <:+: p) ∧
      (∀ text, r.outcome ≠ .failed (.unknownOperator text)) ∧
      (∀ e, r.outcome = .failed e → r.program = p) ∧
      r.spawned = (p.created sink costs expression s).map (·.id) := by
  intro r
  obtain ⟨-, hreduces⟩ := reduces_created sink costs expression p s
  have hkept : ∀ e, r.outcome = .failed e → r.program = p := fun e he => hreduces.program_eq he
  have hspawned : r.spawned = (p.created sink costs expression s).map (·.id) := hreduces.spawned_eq
  rcases outcome_cases sink costs expression p s with
    ⟨v, rfl, hr⟩ | ⟨hzero, hr⟩ | ⟨hbad, hr⟩ | ⟨hpending, hr⟩
  · have hr : r.outcome = .completed v := hr
    have hzero : ¬ DividesByZero [.number v] := fun h => absurd h.three_le_length (by simp)
    have hbad : ¬ IsMalformed [.number v] := by simp [IsMalformed]
    exact ⟨fun w => by simp [hr], iff_of_false (by simp [hr]) hzero,
      iff_of_false (by simp [hr]) hbad, iff_of_false (by simp [hr]) (by simp), by simp [hr], hkept,
      hspawned⟩
  · have hr : r.outcome = .failed .divisionByZero := hr
    have hlone (v : Int64) : p ≠ [.number v] := fun hp =>
      absurd hzero.three_le_length (by simp [hp])
    have hbad : ¬ p.IsMalformed := fun h => h.not_dividesByZero hzero
    obtain ⟨a, hwindow⟩ := hzero.exists_window
    exact ⟨fun v => iff_of_false (by simp [hr]) (hlone v), iff_of_true hr hzero,
      iff_of_false (by simp [hr]) hbad, iff_of_false (by simp [hr]) fun h => h.2.2 a hwindow,
      by simp [hr], hkept, hspawned⟩
  · have hr : r.outcome = .failed .malformed := hr
    have hlone (v : Int64) : p ≠ [.number v] := fun hp => by simp [IsMalformed, hp] at hbad
    exact ⟨fun v => iff_of_false (by simp [hr]) (hlone v),
      iff_of_false (by simp [hr]) hbad.not_dividesByZero, iff_of_true hr hbad,
      iff_of_false (by simp [hr]) fun h => hbad.not_isPostfix (Nat.le_of_succ_le h.2.1) h.1,
      by simp [hr], hkept, hspawned⟩
  · have hr : r.outcome = .pending := hr
    obtain ⟨hpost, hthree, hnone⟩ := hpending
    have hlone (v : Int64) : p ≠ [.number v] := fun hp => absurd hthree (by simp [hp])
    have hzero : ¬ p.DividesByZero := fun h => by
      obtain ⟨a, hwindow⟩ := h.exists_window
      exact hnone a hwindow
    have hbad : ¬ p.IsMalformed := fun h => h.not_isPostfix (Nat.le_of_succ_le hthree) hpost
    exact ⟨fun v => iff_of_false (by simp [hr]) (hlone v), iff_of_false (by simp [hr]) hzero,
      iff_of_false (by simp [hr]) hbad, iff_of_true hr ⟨hpost, hthree, hnone⟩, by simp [hr], hkept,
      hspawned⟩

end Program

end Piecework
