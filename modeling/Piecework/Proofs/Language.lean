import Mathlib.Data.List.Forall2
import Piecework.Program.Language
import Piecework.Proofs.Runs
import Piecework.Proofs.Spelling

/-!
# Reading the language of programs

A text is cut into its runs without blanks, and each run is read on its own: as a token if it
spells one, and with an error of its own otherwise. Since no run spells two tokens, a program is
read from a text exactly when its tokens are spelled by the runs in their order, and otherwise the
leftmost run that spells none decides the error.
-/

namespace Piecework

/-! ## Cutting at blanks -/

/-- Blanks in front of a text add no run. -/
theorem runs_append_of_blank {before : List Char} (hbefore : ∀ c ∈ before, isBlank c = true)
    (cs : List Char) : runs (before ++ cs) = runs cs := by
  induction before with
  | nil => rfl
  | cons c before ih =>
    obtain ⟨hc, hbefore⟩ := List.forall_mem_cons.mp hbefore
    rw [← ih hbefore, runs, runs, List.cons_append, pieces, if_pos hc]
    rfl

/-- A text is cut into its longest runs without blanks. -/
theorem HasRuns.runs_eq {cs : List Char} {rs : List (List Char)}
    (h : HasRuns (! isBlank ·) cs rs) : runs cs = rs := by
  induction h with
  | @none cs hnone =>
    have hblank : ∀ c ∈ cs, isBlank c = true := by simpa using hnone
    have hempty := runs_append_of_blank hblank []
    rwa [List.append_nil] at hempty
  | @cons before run behind rs hbefore hne hrun hbehind _ ih =>
    have hrun : ∀ c ∈ run, isBlank c = false := by simpa using hrun
    rw [List.append_assoc, runs_append_of_blank (by simpa using hbefore)]
    cases behind with
    | nil =>
      obtain rfl : [] = rs := ih
      simp [runs, pieces_of_no_blank hrun, hne]
    | cons b behind =>
      have hb : isBlank b = true := by simpa using hbehind b rfl
      have hblank : ∀ c ∈ [b], isBlank c = true := by simpa using hb
      have hrest : runs behind = rs := (runs_append_of_blank hblank behind).symm.trans ih
      rw [runs, pieces_append_blank hrun hb, List.filter_cons_of_pos (by simpa using hne), ← hrest,
        runs]

/-! ## Tokens -/

namespace Token

variable {t : Token} {cs : List Char} {e : ProgramError}

/-- What is spelled is read. -/
theorem Spells.ofSpelling_eq (h : t.Spells cs) : ofSpelling cs = .ok t := by
  have htask {cs : List Char} {id : TaskId} (hread : Decimal.unsigned? wordMax cs = some id) :
      ofSpelling (taskMark ++ cs) = .ok (.task id) := by
    have hmark : taskMark.isPrefixOf (taskMark ++ cs) = true :=
      List.isPrefixOf_iff_prefix.mpr (List.prefix_append _ _)
    rw [ofSpelling, if_pos hmark, List.drop_left, hread]
  have hnumber {cs : List Char} {v : Int64} (hsigned : isSignedNumeral cs = true)
      (hread : Decimal.signedValue? cs = some v) : ofSpelling cs = .ok (.number v) := by
    rw [ofSpelling, not_taskMark_prefix hsigned, if_neg Bool.false_ne_true, if_pos hsigned, hread]
  cases h with
  | operator op => cases op <;> rfl
  | number hds hv =>
    exact hnumber (isSignedNumeral_iff.mpr ⟨_, hds, .inl rfl⟩)
      (Decimal.signedValue?_eq_some_iff.mpr ⟨_, hds, .inl ⟨rfl, hv⟩⟩)
  | negative hds hv =>
    exact hnumber (isSignedNumeral_iff.mpr ⟨_, hds, .inr rfl⟩)
      (Decimal.signedValue?_eq_some_iff.mpr ⟨_, hds, .inr ⟨rfl, hv⟩⟩)
  | task hds hle => exact htask (Decimal.unsigned?_eq_some_iff.mpr ⟨_, hds, .inl rfl, rfl, hle⟩)
  | plusTask hds hle =>
    exact htask (Decimal.unsigned?_eq_some_iff.mpr ⟨_, hds, .inr rfl, rfl, hle⟩)

/-- The only operator that a row of characters can be is the one whose symbol it is. -/
theorem ofText_cases (cs : List Char) :
    (∃ op, cs = [op.symbol] ∧ Operator.ofText cs = .ok op) ∨
      Operator.ofText cs = .error (.unknownOperator (String.ofList cs)) := by
  unfold Operator.ofText
  split
  · next c =>
    split
    · next op hop => exact .inl ⟨op, by rw [Operator.eq_symbol_of_ofSymbol? hop], rfl⟩
    · exact .inr rfl
  · exact .inr rfl

/-- A row of characters is read as a token that it spells, or it is refused by its kind. -/
theorem ofSpelling_cases (cs : List Char) :
    (∃ t, t.Spells cs ∧ ofSpelling cs = .ok t) ∨
      (IsNumeric cs ∧ ofSpelling cs = .error .malformed) ∨
      (¬ IsNumeric cs ∧ ofSpelling cs = .error (.unknownOperator (String.ofList cs))) := by
  unfold ofSpelling
  split
  · next hmark =>
    obtain ⟨rest, rfl⟩ := List.isPrefixOf_iff_prefix.mp hmark
    rw [List.drop_left]
    split
    · next id hread =>
      obtain ⟨ds, hds, rfl | rfl, rfl, hle⟩ := Decimal.unsigned?_eq_some_iff.mp hread
      · exact .inl ⟨_, .task hds hle, rfl⟩
      · exact .inl ⟨_, .plusTask hds hle, rfl⟩
    · exact .inr (.inl ⟨.inl (List.prefix_append _ _), rfl⟩)
  · next hmark =>
    split
    · next hsigned =>
      split
      · next v hread =>
        obtain ⟨ds, hds, ⟨rfl, hv⟩ | ⟨rfl, hv⟩⟩ := Decimal.signedValue?_eq_some_iff.mp hread
        · exact .inl ⟨_, .number hds hv, rfl⟩
        · exact .inl ⟨_, .negative hds hv, rfl⟩
      · exact .inr (.inl ⟨.inr (isSignedNumeral_iff.mp hsigned), rfl⟩)
    · next hunsigned =>
      rcases ofText_cases cs with ⟨op, rfl, hop⟩ | hother
      · exact .inl ⟨_, .operator op, by rw [hop]; rfl⟩
      · refine .inr (.inr ⟨?_, by rw [hother]; rfl⟩)
        rintro (hmarked | hnumeral)
        · exact hmark (List.isPrefixOf_iff_prefix.mpr hmarked)
        · exact hunsigned (isSignedNumeral_iff.mpr hnumeral)

/-- A token is read exactly from the characters that spell it. -/
theorem ofSpelling_eq_ok_iff : ofSpelling cs = .ok t ↔ t.Spells cs := by
  refine ⟨fun h => ?_, Spells.ofSpelling_eq⟩
  rcases ofSpelling_cases cs with ⟨t', ht', hread⟩ | ⟨_, hread⟩ | ⟨_, hread⟩
  · obtain rfl := Except.ok.inj (hread.symm.trans h)
    exact ht'
  · exact absurd (hread.symm.trans h) (by simp)
  · exact absurd (hread.symm.trans h) (by simp)

/-- Exactly the characters that spell no token are refused, by their kind. -/
theorem ofSpelling_eq_error_iff :
    ofSpelling cs = .error e ↔ (¬ ∃ t : Token, t.Spells cs) ∧
      (IsNumeric cs ∧ e = .malformed ∨
        ¬ IsNumeric cs ∧ e = .unknownOperator (String.ofList cs)) := by
  rcases ofSpelling_cases cs with ⟨t, ht, hread⟩ | ⟨hnumeric, hread⟩ | ⟨hother, hread⟩
  · refine iff_of_false (by simp [hread]) fun h => h.1 ⟨t, ht⟩
  · have hnone : ¬ ∃ t : Token, t.Spells cs := fun ⟨t, ht⟩ => by simp [ht.ofSpelling_eq] at hread
    simp [hread, hnone, hnumeric, eq_comm]
  · have hnone : ¬ ∃ t : Token, t.Spells cs := fun ⟨t, ht⟩ => by simp [ht.ofSpelling_eq] at hread
    simp [hread, hnone, hother, eq_comm]

end Token

/-! ## Programs -/

namespace Program

variable {rs : List (List Char)} {p : Program} {e : ProgramError}

/-- Runs are read as a program exactly if they spell its tokens. -/
theorem mapM_ofSpelling_eq_ok_iff :
    rs.mapM Token.ofSpelling = .ok p ↔ List.Forall₂ Token.Spells p rs := by
  induction rs generalizing p with
  | nil => simp [pure, Except.pure, eq_comm]
  | cons r rs ih =>
    simp only [ofSpelling_eq_ok_cons, Token.ofSpelling_eq_ok_iff, ih, List.forall₂_cons_right_iff]

/-- Runs are refused exactly if the leftmost one that spells no token is, behind some that do. -/
theorem mapM_ofSpelling_eq_error_iff :
    rs.mapM Token.ofSpelling = .error e ↔ ∃ before r behind, rs = before ++ r :: behind ∧
      (∀ r' ∈ before, ∃ t : Token, t.Spells r') ∧ Token.ofSpelling r = .error e := by
  induction rs with
  | nil => simp [pure, Except.pure]
  | cons r rs ih =>
    rw [List.mapM_cons]
    cases hr : Token.ofSpelling r with
    | error e' =>
      have hrefused : ¬ ∃ t : Token, t.Spells r := (Token.ofSpelling_eq_error_iff.mp hr).1
      constructor
      · intro h
        obtain rfl := Except.error.inj h
        exact ⟨[], r, rs, rfl, by simp, hr⟩
      · rintro ⟨_ | ⟨r', before⟩, r'', behind, heq, hspelled, hr''⟩
        · obtain ⟨rfl, rfl⟩ := List.cons.inj heq
          obtain rfl := Except.error.inj (hr.symm.trans hr'')
          rfl
        · obtain ⟨rfl, _⟩ := List.cons.inj heq
          exact absurd (hspelled r List.mem_cons_self) hrefused
    | ok t =>
      have hspells : t.Spells r := Token.ofSpelling_eq_ok_iff.mp hr
      have hrest : (Except.ok t >>= fun a => rs.mapM Token.ofSpelling >>= fun q => pure (a :: q)) =
          .error e ↔ rs.mapM Token.ofSpelling = .error e := by
        cases rs.mapM Token.ofSpelling <;> simp [bind, Except.bind, pure, Except.pure]
      refine hrest.trans (ih.trans ⟨?_, ?_⟩)
      · rintro ⟨before, r', behind, rfl, hspelled, hr'⟩
        exact ⟨r :: before, r', behind, rfl, List.forall_mem_cons.mpr ⟨⟨t, hspells⟩, hspelled⟩, hr'⟩
      · rintro ⟨_ | ⟨r', before⟩, r'', behind, heq, hspelled, hr''⟩
        · obtain ⟨rfl, rfl⟩ := List.cons.inj heq
          exact absurd (hr.symm.trans hr'') (by simp)
        · obtain ⟨rfl, rfl⟩ := List.cons.inj heq
          exact ⟨before, r'', behind, rfl, (List.forall_mem_cons.mp hspelled).2, hr''⟩

/-- Some program is spelled by runs exactly if each of them spells a token. -/
theorem exists_spelled_iff :
    (∃ p, List.Forall₂ Token.Spells p rs) ↔ ∀ r ∈ rs, ∃ t : Token, t.Spells r := by
  induction rs with
  | nil => simp
  | cons r rs ih =>
    rw [List.forall_mem_cons, ← ih]
    simp only [List.forall₂_cons_right_iff]
    constructor
    · rintro ⟨_, t, p, ht, hp, rfl⟩
      exact ⟨⟨t, ht⟩, p, hp⟩
    · rintro ⟨⟨t, ht⟩, p, hp⟩
      exact ⟨_, t, p, ht, hp, rfl⟩

/-- The longest runs of a text without blanks decide how it is read. It reads as a program exactly
if each of them spells a token, and then as the tokens that they spell, in order. Otherwise the
leftmost run that spells none decides the error: the program is malformed if the run begins like a
placeholder or is made like a number, and else the run is an unknown operator. -/
theorem runs_decide_reading (s : String) :
    ∃ rs, (∀ rs', HasRuns (! isBlank ·) s.toList rs' ↔ rs' = rs) ∧
      ((∃ p, ofText s = .ok p) ↔ ∀ r ∈ rs, ∃ t : Token, t.Spells r) ∧
      (∀ p, ofText s = .ok p ↔ List.Forall₂ Token.Spells p rs) ∧
      ∀ e, ofText s = .error e ↔ ∃ before r behind, rs = before ++ r :: behind ∧
        (∀ r' ∈ before, ∃ t : Token, t.Spells r') ∧ (¬ ∃ t : Token, t.Spells r) ∧
        (Token.IsNumeric r ∧ e = .malformed ∨
          ¬ Token.IsNumeric r ∧ e = .unknownOperator (String.ofList r)) := by
  obtain ⟨rs, hrs⟩ := exists_hasRuns_iff (! isBlank ·) s.toList
  have hruns : runs s.toList = rs := ((hrs rs).mpr rfl).runs_eq
  have hread : ofText s = rs.mapM Token.ofSpelling := by rw [ofText, ofSpelling, hruns]
  refine ⟨rs, hrs, ?_, fun p => ?_, fun e => ?_⟩
  · simp only [hread, mapM_ofSpelling_eq_ok_iff, exists_spelled_iff]
  · rw [hread, mapM_ofSpelling_eq_ok_iff]
  · simp only [hread, mapM_ofSpelling_eq_error_iff, Token.ofSpelling_eq_error_iff]

end Program

end Piecework
