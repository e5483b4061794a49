import Piecework.Proofs.Pass

/-!
# How a pass ends

A pass over a program leaves work pending, completes it or refuses it, and each
end says something about the program and about the tasks cut out on the way. A
refusal as malformed means that the program was not postfix, or nothing but a
placeholder.
-/

namespace Piecework

namespace Program

/-- The ways in which a pass over a program can end, with the tasks that it cut out. A program is
refused as malformed when it is not postfix, or when it is a placeholder that nobody filled. -/
inductive Reduces {σ : Type} (sink : Sink σ) (p : Program) (s : σ) :
    List Task → Reduction × σ → Prop where
  | pending {created : List Task} {q : Program} {s' : σ} : 2 ≤ p.length → p.IsPostfix →
      Cuts created p q → q.IsWindowless → sink.Takes created s s' →
      Reduces sink p s created (⟨q, .pending, created.map (·.id)⟩, s')
  | completed {v : Int64} : p = [.number v] → Reduces sink p s [] (⟨p, .completed v, []⟩, s)
  | divided {created : List Task} {before behind : Program} {a : Int64} {s' : σ} :
      Cuts created p (before ++ .number a :: .number 0 :: .operator .div :: behind) →
      sink.Takes created s s' →
      Reduces sink p s created (⟨p, .failed .divisionByZero, created.map (·.id)⟩, s')
  | malformed {created : List Task} {q : Program} {s' : σ} :
      ¬ p.IsPostfix ∨ (∃ id, p = [.task id]) → sink.Takes created s s' → Cuts created p q →
      Reduces sink p s created (⟨p, .failed .malformed, created.map (·.id)⟩, s')

/-- The sink has taken the tasks that were cut out, also by a pass that failed. -/
theorem Reduces.takes {σ : Type} {sink : Sink σ} {p : Program} {s : σ} {created : List Task}
    {r : Reduction × σ} (h : Reduces sink p s created r) : sink.Takes created s r.2 := by
  cases h with
  | pending _ _ _ _ htakes => exact htakes
  | completed _ => exact .nil s
  | divided _ htakes => exact htakes
  | malformed _ htakes => exact htakes

/-- The tasks that were cut out are listed, also by a pass that failed. -/
theorem Reduces.spawned_eq {σ : Type} {sink : Sink σ} {p : Program} {s : σ} {created : List Task}
    {r : Reduction × σ} (h : Reduces sink p s created r) : r.1.spawned = created.map (·.id) := by
  cases h <;> rfl

/-- A program of several tokens is read to the end or to the first refusal. -/
theorem reduce_eq_readAll {σ : Type} (sink : Sink σ) (costs : Costs) (expression : ExpressionId)
    {p : Program} (hlength : 2 ≤ p.length) (s : σ) :
    p.reduce sink costs expression s =
      (match Pass.readAll sink costs expression ⟨[], 0, [], s⟩ p with
      | (last, none) => (⟨last.written.reverse, .pending, last.spawned.reverse⟩, last.sink)
      | (last, some e) => (⟨p, .failed e, last.spawned.reverse⟩, last.sink)) := by
  obtain _ | ⟨t, _ | ⟨t', ts⟩⟩ := p
  · contradiction
  · contradiction
  · cases t <;> rfl

/-- A pass over a program of several tokens ends as its reading stops. -/
theorem exists_reduces_of_two_le {σ : Type} (sink : Sink σ) (costs : Costs)
    (expression : ExpressionId) {p : Program} (hlength : 2 ≤ p.length) (s : σ) :
    ∃ created, (∀ t ∈ created, t.IsCutFrom costs expression) ∧
      Reduces sink p s created (p.reduce sink costs expression s) := by
  obtain ⟨created, rest, hall, hstops⟩ :=
    Pass.readAll_readsAll sink costs expression (Pass.isSound_start s) p
  refine ⟨created, hall.created_cut, ?_⟩
  rw [reduce_eq_readAll sink costs expression hlength]
  generalize Pass.readAll sink costs expression ⟨[], 0, [], s⟩ p = r at hall hstops ⊢
  obtain ⟨last, e⟩ := r
  dsimp only at hall hstops ⊢
  have hspawned : last.spawned.reverse = created.map (·.id) := by simp [hall.spawned_eq]
  have hoperands : operands? 0 p = operands? last.depth rest := hall.operands?_eq
  have hcuts : Cuts created p (last.written.reverse ++ rest) := hall.cuts
  cases hstops with
  | complete hdepth =>
    simp only [hspawned]
    rw [hdepth] at hoperands
    rw [List.append_nil] at hcuts
    exact .pending hlength hoperands hcuts hall.sound.windowless hall.takes
  | surplus hdepth =>
    simp only [hspawned]
    refine .malformed (.inl fun hpost => hdepth ?_) hall.takes hcuts
    exact Option.some.inj (hoperands.symm.trans hpost)
  | refused hrefuses =>
    cases hrefuses with
    | missing hdepth =>
      simp only [hspawned]
      refine .malformed (.inl fun hpost => ?_) hall.takes hcuts
      rw [operands?, if_pos hdepth] at hoperands
      exact Option.some_ne_none _ (Eq.trans (Eq.symm hpost) hoperands)
    | division hwritten =>
      simp only [hspawned]
      rw [hwritten] at hcuts
      exact .divided (by simpa using hcuts) hall.takes

/-- Every pass ends in one of the ways listed. -/
theorem exists_reduces {σ : Type} (sink : Sink σ) (costs : Costs) (expression : ExpressionId)
    (p : Program) (s : σ) :
    ∃ created, (∀ t ∈ created, t.IsCutFrom costs expression) ∧
      Reduces sink p s created (p.reduce sink costs expression s) := by
  match p with
  | [] => exact ⟨[], by simp, .malformed (.inl (by simp [IsPostfix, operands?])) (.nil _) (.nil _)⟩
  | [.number v] => exact ⟨[], by simp, .completed rfl⟩
  | [.task id] => exact ⟨[], by simp, .malformed (.inr ⟨id, rfl⟩) (.nil _) (.nil _)⟩
  | [.operator op] =>
    exact ⟨[], by simp, .malformed (.inl (by simp [IsPostfix, operands?])) (.nil _) (.nil _)⟩
  | _ :: _ :: _ => exact exists_reduces_of_two_le sink costs expression (by simp) s

end Program

end Piecework
