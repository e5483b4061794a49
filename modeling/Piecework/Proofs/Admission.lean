import Piecework.Proofs.Acceptance
import Piecework.Proofs.Infix.Sentences
import Piecework.Proofs.Outcome

/-!
# What a submission admits

The pass at submission sees the program of a text and not the text itself. It turns
away every text whose program no sentence has, at once and with no task left behind,
and any other text only for a division by zero. So what is evaluated is always the
program of some sentence, though not always of a text that is one: `1 2 +` is admitted
like `1+2`.
-/

namespace Piecework

/-- A pass over a program that is not postfix fails an open expression at once, as malformed or by a
division by zero that comes first, and leaves no task. -/
theorem Share.Passes.failed_of_not_isPostfix {p : Program} {e : Expression} {es : List Entry}
    {created : List Task} {s' : Share} (h : Passes p ⟨some e, es⟩ created s')
    (hopen : e.isFinal = false) (hpost : ¬ p.IsPostfix) :
    ∃ e', s'.expression = some e' ∧ s'.entries = [] ∧
      (e'.status = .failed ProgramError.malformed.message ∨
        e'.status = .failed ProgramError.divisionByZero.message) := by
  cases h with
  | pending _ hpost' _ _ => exact absurd hpost' hpost
  | completed hp =>
    rw [hp] at hpost
    exact absurd rfl hpost
  | divided _ =>
    rw [Share.fail_of_open hopen]
    exact ⟨_, rfl, rfl, .inr rfl⟩
  | malformed _ =>
    rw [Share.fail_of_open hopen]
    exact ⟨_, rfl, rfl, .inl rfl⟩

namespace Moment

variable {m : Moment}

/-- A text that compiles is registered at any moment. If its program is that of a sentence, the new
expression can fail within the submission by a division by zero only. If no sentence has its
program, the expression fails within the submission, as malformed or by a division by zero, and none
of its tasks is left in the queue. -/
theorem Reachable.admits_programs_of_sentences (hm : m.Reachable) {text : String} {p : Program}
    (hcompile : Infix.compile text = .ok p) (owner : Nat) :
    ∃ x, (m.step (.submit text owner)).1 = .submitted x ∧
      let later := (m.step (.submit text owner)).2.broker
      ∃ e ∈ later.table.expressions, e.id = x ∧
        ((∃ sentence, Infix.IsSentence sentence ∧ Infix.compile sentence = .ok p) →
          ∀ reason, e.status = .failed reason → reason = ProgramError.divisionByZero.message) ∧
        ((∀ sentence, Infix.IsSentence sentence → Infix.compile sentence ≠ .ok p) →
          (e.status = .failed ProgramError.malformed.message ∨
            e.status = .failed ProgramError.divisionByZero.message) ∧
          ∀ q ∈ later.queue.entries, q.task.expression ≠ x) := by
  obtain ⟨x, hx⟩ := exists_submitted hcompile m owner
  refine ⟨x, hx, ?_⟩
  intro later
  obtain ⟨p', created, hcompile', _, _, hpasses, _⟩ :=
    exists_passes_of_submitted hm.isConsistent.isOrdered hx
  obtain rfl := Except.ok.inj (hcompile.symm.trans hcompile')
  by_cases hpost : p.IsPostfix
  · have hsentence := (Infix.exists_sentence_iff hcompile).mpr hpost
    have hnotask (id : TaskId) : p ≠ [.task id] := by
      rintro rfl
      exact absurd (Infix.tasks_eq_nil_of_compile hcompile) (by simp)
    have hfails : (later.share x).FailsOnly (· = ProgramError.divisionByZero.message) :=
      hpasses.failsOnly (e := ⟨x, owner, text, p, .processing⟩) rfl hpost hnotask rfl
    obtain ⟨e, he, hreason⟩ := hfails.exists_expression
    obtain ⟨hmem, rfl⟩ := Table.mem_of_get? he
    refine ⟨e, hmem, rfl, fun _ => hreason, fun hnone => ?_⟩
    obtain ⟨sentence, hspells, hcompiled⟩ := hsentence
    exact absurd hcompiled (hnone sentence hspells)
  · obtain ⟨e, he, hentries, hstatus⟩ := hpasses.failed_of_not_isPostfix rfl hpost
    obtain ⟨hmem, rfl⟩ := Table.mem_of_get? he
    refine ⟨e, hmem, rfl, fun hsentence => ?_, fun _ => ⟨hstatus, fun q hq hid => ?_⟩⟩
    · exact absurd ((Infix.exists_sentence_iff hcompile).mp hsentence) hpost
    · have hshare : q ∈ (Broker.share e.id later).entries :=
        List.mem_filter.mpr ⟨hq, decide_eq_true hid⟩
      rw [hentries] at hshare
      contradiction

/-- A text that breaks off behind its operator has the program of no sentence, so its expression
fails within the submission. -/
theorem admits_programs_of_sentences_unfinished :
    ∃ e ∈ (after {} [.submit "1+" 0]).broker.table.expressions,
      e.status = .failed "malformed reduction" ∧
        ∀ q ∈ (after {} [.submit "1+" 0]).broker.queue.entries, q.task.expression ≠ e.id := by
  have hlexemes : Infix.lexemes 0 "1+".toList = [.number 1, .operator .add] := by
    decide +kernel
  have hcompile : Infix.compile "1+" = .ok [.number 1, .operator .add] := by
    rw [Infix.compile, hlexemes]
    rfl
  obtain ⟨x, _, e, he, rfl, _, hturned⟩ :=
    (Reachable.new {}).admits_programs_of_sentences hcompile 0
  have hpost : ¬ Program.IsPostfix [.number 1, .operator .add] := by
    unfold Program.IsPostfix
    decide
  have hnone : ∀ sentence, Infix.IsSentence sentence →
      Infix.compile sentence ≠ .ok [.number 1, .operator .add] := fun sentence hspells hsame =>
    hpost ((Infix.exists_sentence_iff hcompile).mp ⟨sentence, hspells, hsame⟩)
  have hstatus : ∀ e ∈ (after {} [.submit "1+" 0]).broker.table.expressions,
      e.status = .failed "malformed reduction" := by decide +kernel
  exact ⟨e, he, hstatus e he, (hturned hnone).2⟩

/-- The operands of this text stand side by side and its operator stands behind them, so it is no
sentence. It is admitted all the same, its task is offered, and the reported sum is its value. -/
theorem admitted_without_sentence :
    ¬ Infix.IsSentence "1 2 +" ∧
      (Infix.compile "1 2 +").toOption = some [.number 1, .number 2, .operator .add] ∧
      let m := after {} [.submit "1 2 +" 0]
      m.broker.table.expressions.map (·.status) = [.processing] ∧
        m.broker.queue.entries.map (·.task) = [⟨⟨1, .add, 1, 2, 1000⟩, 1⟩] ∧
        (m.after [.poll, .report ⟨1, 3, none⟩]).broker.table.expressions.map (·.status) =
          [.done 3] := by
  have hlast : "1 2 +".toList.getLast? = some Operator.add.symbol := by decide +kernel
  refine ⟨Infix.not_isSentence_of_getLast? hlast, ?_⟩
  decide +kernel

end Moment

end Piecework
