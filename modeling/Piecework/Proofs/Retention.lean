import Piecework.Proofs.Isolation

/-!
# What the table retains

The table is the list of the accepted submissions: the first has number one, each later
one the next, and no event other than a submission adds, removes or renames a row. What
was listed once stays listed, and a finished expression stays what it was.
-/

namespace Piecework

/-- An accepted submission: the number it was given, its owner and its text. -/
structure Submission where
  id : ExpressionId
  owner : Nat
  text : String
  deriving DecidableEq, Repr

/-- The submission that an expression came from. -/
def Expression.submission (e : Expression) : Submission := ⟨e.id, e.owner, e.text⟩

/-- What an expression becomes came from the same submission. -/
theorem Expression.ContinuesAs.submission_eq {e e' : Expression} (h : e.ContinuesAs e') :
    e'.submission = e.submission := by
  simp only [Expression.submission, h.id_eq, h.owner_eq, h.text_eq]

namespace Table

/-- From one table to another every expression goes on under its number, and none is added. -/
structure Continues (t t' : Table) : Prop extends t.SameNumbers t' where
  expressions : ∀ x e, t.get? x = some e → ∃ e', t'.get? x = some e' ∧ e.ContinuesAs e'

/-- Every number that was given finds an expression. -/
theorem IsNumbered.exists_get? {t : Table} (h : t.IsNumbered) {x : ExpressionId}
    (hx : x ∈ List.range' 1 t.lastId) : ∃ e, t.get? x = some e := by
  rw [← h] at hx
  obtain ⟨e, he, rfl⟩ := List.mem_map.mp hx
  exact ⟨e, h.get?_eq_some he⟩

/-- A table that goes on keeps its submissions in their order. -/
theorem Continues.map_submission_eq {t t' : Table} (h : t.Continues t') (ht : t.IsNumbered) :
    t'.expressions.map (·.submission) = t.expressions.map (·.submission) := by
  have ht' := h.toSameNumbers.isNumbered ht
  rw [ht'.expressions_eq, ht.expressions_eq, h.lastId_eq, List.map_filterMap, List.map_filterMap]
  refine List.filterMap_congr fun x hx => ?_
  obtain ⟨e, hget⟩ := ht.exists_get? hx
  obtain ⟨e', hget', hcontinues⟩ := h.expressions x e hget
  rw [hget, hget', Option.map_some, Option.map_some, hcontinues.submission_eq]

end Table

namespace Moment

variable {m : Moment} {x : ExpressionId}

/-- The submission that an event brings and has accepted. -/
def submission? (m : Moment) (ev : Event) : Option Submission :=
  match ev, (m.step ev).1 with
  | .submit text owner, .submitted id => some ⟨id, owner, text⟩
  | _, _ => none

/-- The accepted submissions of a run, in order. -/
def submissions (m : Moment) (es : List Event) : List Submission :=
  (m.trace es).filterMap fun p => p.1.submission? p.2

/-- The submissions of a run are that of its first event and those of the rest. -/
theorem submissions_cons (m : Moment) (ev : Event) (es : List Event) :
    m.submissions (ev :: es) = (m.submission? ev).toList ++ (m.step ev).2.submissions es := by
  simp only [submissions, trace]
  cases h : m.submission? ev <;> simp [h]

/-- An event other than a submission goes on with the table. -/
theorem continues_step (hm : m.broker.IsOrdered) {ev : Event}
    (hev : ∀ text owner, ev ≠ .submit text owner) :
    m.broker.table.Continues (m.step ev).2.broker.table :=
  ⟨sameNumbers_step hm hev, fun _ _ hget => exists_continues_step hm ev hget⟩

/-- An event adds its accepted submission to the table, and nothing else. -/
theorem map_submission_step (hm : m.broker.IsConsistent) (ev : Event) :
    (m.step ev).2.broker.table.expressions.map (·.submission) =
      m.broker.table.expressions.map (·.submission) ++ (m.submission? ev).toList := by
  by_cases hev : ∃ text owner, ev = .submit text owner
  · obtain ⟨text, owner, rfl⟩ := hev
    cases hcompile : Infix.compile text with
    | error e => simp [submission?, step, Broker.submit, hcompile]
    | ok p =>
      obtain ⟨e, _, m', hstep, hrows, rfl, rfl, _⟩ := exists_appended_submit hm hcompile owner
      simp [submission?, hstep, hrows, Expression.submission]
  · have hnone : m.submission? ev = none := by
      unfold submission?
      split
      · exact absurd ⟨_, _, rfl⟩ hev
      · rfl
    have hcontinues := continues_step hm.isOrdered fun text owner h => hev ⟨text, owner, h⟩
    rw [hcontinues.map_submission_eq hm.table, hnone, Option.toList_none, List.append_nil]

/-- A run adds its accepted submissions to the table, in order. -/
theorem map_submission_after (hm : m.broker.IsConsistent) (es : List Event) :
    (m.after es).broker.table.expressions.map (·.submission) =
      m.broker.table.expressions.map (·.submission) ++ m.submissions es := by
  induction es generalizing m with
  | nil => exact (List.append_nil _).symm
  | cons ev es ih =>
    rw [after, ih (isConsistent_step hm ev), map_submission_step hm, submissions_cons,
      List.append_assoc]

/-- The table of a new broker is the list of the accepted submissions. -/
theorem map_submission_of_new (costs : Costs) (events : List Event) :
    (after { broker := { costs := costs } } events).broker.table.expressions.map (·.submission) =
      submissions { broker := { costs := costs } } events :=
  map_submission_after (Broker.isConsistent_new costs) events

/-- In every run of a new broker, whatever comes after it: an expression that has finished stays
as it is, program included; the accepted submissions are numbered from one in their order; each
is found for good under its number, with its owner and its text; and a list of one owner's
expressions, or of all, has exactly the submissions of that owner, or all, by increasing number. -/
theorem expressions_retained (costs : Costs) (events rest : List Event) :
    let start : Moment := { broker := { costs := costs } }
    let m := start.after events
    let later := m.after rest
    (∀ e ∈ m.broker.table.expressions, e.isFinal = true →
      later.broker.table.get? e.id = some e) ∧
    (start.submissions events).map (·.id) = List.range' 1 (start.submissions events).length ∧
    (∀ s ∈ start.submissions events,
      ∃ e, later.broker.table.get? s.id = some e ∧ e.submission = s) ∧
    (m.broker.table.list none).map (·.submission) = start.submissions events ∧
    (∀ o, (m.broker.table.list (some o)).map (·.submission) =
      (start.submissions events).filter (·.owner = o)) ∧
    ∀ owner, (m.broker.table.list owner).Pairwise (·.id < ·.id) := by
  intro start m later
  have hm : m.broker.IsConsistent := isConsistent_after (Broker.isConsistent_new costs) events
  have hrows : m.broker.table.expressions.map (·.submission) = start.submissions events :=
    map_submission_of_new costs events
  have hids : (start.submissions events).map (·.id) = m.broker.table.expressions.map (·.id) := by
    rw [← hrows, List.map_map]
    rfl
  refine ⟨fun e he hfinal => ?_, ?_, fun s hs => ?_, hrows, fun o => ?_, fun owner => ?_⟩
  · obtain ⟨e', hget, hcontinues⟩ :=
      exists_continues_after hm (hm.table.get?_eq_some he) rest
    rwa [hcontinues.eq_of_isFinal hfinal] at hget
  · have hlength := congrArg List.length (hids.trans hm.table)
    rw [List.length_map, List.length_range'] at hlength
    rw [hlength, hids]
    exact hm.table
  · rw [← hrows] at hs
    obtain ⟨e, he, rfl⟩ := List.mem_map.mp hs
    obtain ⟨e', hget, hcontinues⟩ :=
      exists_continues_after hm (hm.table.get?_eq_some he) rest
    exact ⟨e', hget, hcontinues.submission_eq⟩
  · rw [← hrows, List.filter_map]
    rfl
  · cases owner with
    | none => exact hm.table.increasing
    | some o => exact hm.table.increasing.filter _

/-- A number is done at once, and is still found as it was after the claim on a later sum of the
same owner has lapsed. -/
theorem expressions_retained_beside_timeout :
    let later := (after {} [.submit "5" 7, .submit "1+2" 7]).after [.poll, .wait 5000, .poll]
    later.broker.table.get? 1 = some ⟨1, 7, "5", [.number 5], .done 5⟩ ∧
      ∃ e, later.broker.table.get? 2 = some e ∧ e.submission = ⟨2, 7, "1+2"⟩ := by
  obtain ⟨hfinal, _, hfound, _⟩ :=
    expressions_retained {} [.submit "5" 7, .submit "1+2" 7] [.poll, .wait 5000, .poll]
  have hdone : ⟨1, 7, "5", [.number 5], .done 5⟩ ∈
      (after {} [.submit "5" 7, .submit "1+2" 7]).broker.table.expressions := by
    decide +kernel
  have hlisted : ⟨2, 7, "1+2"⟩ ∈ submissions {} [.submit "5" 7, .submit "1+2" 7] := by
    decide +kernel
  have hkept := hfinal _ hdone rfl
  have hthere := hfound _ hlisted
  exact ⟨hkept, hthere⟩

end Moment

end Piecework
