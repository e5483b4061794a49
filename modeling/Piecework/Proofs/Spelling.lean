import Piecework.Proofs.Decimal
import Piecework.Proofs.Program

/-!
# Programs in text form

The spelling of a token is a run without blanks, and reads as the token alone: a minus
sign without digits is the operator, and with digits it belongs to the number. So the text
of a program falls back into its tokens, and a text that reads as a program has the text
of this program as its canonical form. Only the numbers of placeholders have to fit a word.
-/

namespace Piecework

/-! ## Blanks between spellings -/

/-- A digit is not blank. -/
theorem isBlank_of_isDigit {c : Char} (h : c.isDigit = true) : isBlank c = false := by
  simp only [Char.isDigit, Bool.and_eq_true, decide_eq_true_eq] at h
  obtain ⟨hlow, hhigh⟩ := h
  have hlow : 48 ≤ c.toNat := hlow
  have hhigh : c.toNat ≤ 57 := hhigh
  simp only [isBlank, blankRanges, List.any_cons, List.any_nil, Bool.or_false, Bool.or_eq_false_iff,
    decide_eq_false_iff_not]
  omega

/-- A row of characters without blanks is one piece. -/
theorem pieces_of_no_blank {w : List Char} (hw : ∀ c ∈ w, isBlank c = false) : pieces w = [w] := by
  induction w with
  | nil => rfl
  | cons c w ih =>
    obtain ⟨hc, hw⟩ := List.forall_mem_cons.mp hw
    simp [pieces, hc, ih hw]

/-- A blank ends the piece before it. -/
theorem pieces_append_blank {w : List Char} (hw : ∀ c ∈ w, isBlank c = false) {b : Char}
    (hb : isBlank b = true) (rest : List Char) : pieces (w ++ b :: rest) = w :: pieces rest := by
  induction w with
  | nil => simp [pieces, hb]
  | cons c w ih =>
    obtain ⟨hc, hw⟩ := List.forall_mem_cons.mp hw
    simp [pieces, hc, ih hw]

/-- Runs with one space between neighbours are cut apart again. -/
theorem runs_intercalate {ws : List (List Char)} (hempty : ∀ w ∈ ws, w ≠ [])
    (hblank : ∀ w ∈ ws, ∀ c ∈ w, isBlank c = false) : runs ([' '].intercalate ws) = ws := by
  induction ws with
  | nil => rfl
  | cons w ws ih =>
    obtain ⟨hw, hempty⟩ := List.forall_mem_cons.mp hempty
    obtain ⟨hwblank, hblank⟩ := List.forall_mem_cons.mp hblank
    have hrest := ih hempty hblank
    cases ws with
    | nil => simp [runs, pieces_of_no_blank hwblank, hw]
    | cons w' ws =>
      have hspace : isBlank ' ' = true := by decide
      rw [runs] at hrest ⊢
      rw [List.intercalate_cons_cons, List.append_assoc, List.singleton_append,
        pieces_append_blank hwblank hspace, List.filter_cons_of_pos (by simpa using hw), hrest]

/-! ## Tokens -/

namespace Token

/-- The spelling of a token is not empty. -/
theorem spelling_ne_nil (t : Token) : t.spelling ≠ [] := by
  cases t with
  | number v =>
    rw [spelling, Decimal.signedDigits]
    split
    · exact List.cons_ne_nil _ _
    · obtain ⟨c, ds, heq, _⟩ := Decimal.exists_cons_of_isNumeral (Decimal.isNumeral_digits _)
      exact heq ▸ List.cons_ne_nil c ds
  | operator op => exact List.cons_ne_nil _ _
  | task id => exact List.cons_ne_nil _ _

/-- The spelling of a token has no blanks. -/
theorem isBlank_of_mem_spelling {t : Token} {c : Char} (h : c ∈ t.spelling) :
    isBlank c = false := by
  have hdigits {n : Nat} (h : c ∈ Decimal.digits n) : isBlank c = false :=
    isBlank_of_isDigit (Decimal.isDigit_of_mem_digits h)
  cases t with
  | number v =>
    rw [spelling, Decimal.signedDigits] at h
    split at h
    · rcases List.mem_cons.mp h with rfl | h
      · decide
      · exact hdigits h
    · exact hdigits h
  | operator op =>
    obtain rfl := List.mem_singleton.mp h
    cases op <;> decide
  | task id =>
    rcases List.mem_append.mp h with hmark | h
    · have hall : taskMark.all (! isBlank ·) = true := by decide
      exact (Bool.not_eq_true' _).mp (List.all_eq_true.mp hall c hmark)
    · exact hdigits h

/-- What is taken for a number is a numeral, with or without a minus sign. -/
theorem isSignedNumeral_iff {cs : List Char} :
    isSignedNumeral cs = true ↔
      ∃ ds, Decimal.isNumeral ds = true ∧ (cs = ds ∨ cs = '-' :: ds) := by
  constructor
  · intro h
    unfold isSignedNumeral at h
    split at h
    · next ds => exact ⟨ds, h, .inr rfl⟩
    · exact ⟨cs, h, .inl rfl⟩
  · rintro ⟨ds, hds, rfl | rfl⟩
    · obtain ⟨c, ds, rfl, hdigit, _⟩ := Decimal.exists_cons_of_isNumeral hds
      rw [isSignedNumeral]
      · exact hds
      · exact fun cs hcs => Decimal.ne_of_isDigit hdigit (by decide) (List.cons.inj hcs).1
    · exact hds

/-- What is taken for a number does not begin with the mark of a placeholder. -/
theorem not_taskMark_prefix {cs : List Char} (h : isSignedNumeral cs = true) :
    taskMark.isPrefixOf cs = false := by
  obtain ⟨ds, hds, rfl | rfl⟩ := isSignedNumeral_iff.mp h
  · obtain ⟨c, ds, rfl, hdigit, _⟩ := Decimal.exists_cons_of_isNumeral hds
    have hmark : 't' ≠ c := (Decimal.ne_of_isDigit hdigit (by decide)).symm
    simp [taskMark, List.isPrefixOf, hmark]
  · rfl

/-- The written form of a number is taken for one. -/
theorem isSignedNumeral_signedDigits (i : Int) :
    isSignedNumeral (Decimal.signedDigits i) = true := by
  rw [Decimal.signedDigits]
  have hdigits := Decimal.isNumeral_digits i.natAbs
  split
  · exact isSignedNumeral_iff.mpr ⟨_, hdigits, .inr rfl⟩
  · exact isSignedNumeral_iff.mpr ⟨_, hdigits, .inl rfl⟩

/-- A token whose number fits a word is read from its spelling. -/
theorem ofSpelling_spelling {t : Token} (h : ∀ id, t = .task id → id ≤ wordMax) :
    ofSpelling t.spelling = .ok t := by
  cases t with
  | number v =>
    have hsigned := isSignedNumeral_signedDigits v.toInt
    rw [spelling, ofSpelling, not_taskMark_prefix hsigned, if_neg Bool.false_ne_true,
      if_pos hsigned, Decimal.signedValue?_signedDigits]
  | operator op => cases op <;> rfl
  | task id =>
    have hmark : taskMark.isPrefixOf (taskMark ++ Decimal.digits id) = true :=
      List.isPrefixOf_iff_prefix.mpr (List.prefix_append _ _)
    rw [spelling, ofSpelling, if_pos hmark, List.drop_left, Decimal.unsigned?_digits (h id rfl)]

/-- A placeholder that is read has a number that fits a word. -/
theorem le_of_ofSpelling {cs : List Char} {id : TaskId} (h : ofSpelling cs = .ok (.task id)) :
    id ≤ wordMax := by
  unfold ofSpelling at h
  split at h
  · split at h
    · next hread =>
      obtain rfl := Token.task.inj (Except.ok.inj h)
      exact Decimal.le_of_unsigned? hread
    · contradiction
  · split at h
    · split at h
      · exact absurd (Except.ok.inj h) (by simp)
      · contradiction
    · cases hop : Operator.ofText cs <;> simp [hop, Except.map] at h

end Token

/-! ## Programs -/

namespace Program

/-- Tokens are read one after the other, each on its own. -/
theorem ofSpelling_eq_ok_cons {w : List Char} {ws : List (List Char)} {p : Program} :
    (w :: ws).mapM Token.ofSpelling = .ok p ↔
      ∃ t q, Token.ofSpelling w = .ok t ∧ ws.mapM Token.ofSpelling = .ok q ∧ p = t :: q := by
  rw [List.mapM_cons]
  cases Token.ofSpelling w with
  | error e => simp [bind, Except.bind]
  | ok t =>
    cases ws.mapM Token.ofSpelling with
    | error e => simp [bind, Except.bind]
    | ok q => simp [bind, Except.bind, pure, Except.pure, eq_comm]

/-- Tokens whose numbers fit a word are read from their spellings. -/
theorem mapM_ofSpelling_spelling {p : Program} (h : ∀ id ∈ p.tasks, id ≤ wordMax) :
    (p.map Token.spelling).mapM Token.ofSpelling = .ok p := by
  induction p with
  | nil => rfl
  | cons t p ih =>
    have hfirst : Token.ofSpelling t.spelling = .ok t :=
      Token.ofSpelling_spelling fun id ht => h id (mem_tasks_iff.mpr (ht ▸ List.mem_cons_self))
    have hrest := ih fun id hid =>
      h id (mem_tasks_iff.mpr (List.mem_cons_of_mem t (mem_tasks_iff.mp hid)))
    exact ofSpelling_eq_ok_cons.mpr ⟨t, p, hfirst, hrest, rfl⟩

/-- The placeholders that are read have numbers that fit a word. -/
theorem le_of_mapM_ofSpelling {ws : List (List Char)} {p : Program}
    (h : ws.mapM Token.ofSpelling = .ok p) : ∀ id ∈ p.tasks, id ≤ wordMax := by
  induction ws generalizing p with
  | nil =>
    obtain rfl := Except.ok.inj h
    intro id hid
    contradiction
  | cons w ws ih =>
    obtain ⟨t, q, hfirst, hrest, rfl⟩ := ofSpelling_eq_ok_cons.mp h
    intro id hid
    rcases List.mem_cons.mp (mem_tasks_iff.mp hid) with rfl | hlater
    · exact Token.le_of_ofSpelling hfirst
    · exact ih hrest id (mem_tasks_iff.mpr hlater)

/-- The text of a program is cut into the spellings of its tokens. -/
theorem runs_spelling (p : Program) : runs p.spelling = p.map Token.spelling := by
  refine runs_intercalate ?_ ?_
  · simp only [List.forall_mem_map]
    exact fun t _ => t.spelling_ne_nil
  · simp only [List.forall_mem_map]
    exact fun t _ c hc => Token.isBlank_of_mem_spelling hc

/-- A program whose placeholders have numbers that fit a word is read from its text. -/
theorem ofText_text {p : Program} (h : ∀ id ∈ p.tasks, id ≤ wordMax) : ofText p.text = .ok p := by
  rw [ofText, text, String.toList_ofList, ofSpelling, runs_spelling, mapM_ofSpelling_spelling h]

/-- Every program whose placeholders have numbers that fit a word, postfix or not, is read from its
text. Every text that reads as a program has the text of this program as a canonical form: it reads
as the same program, and two such texts have the same canonical form exactly when they read as the
same program. -/
theorem text_round_trips :
    (∀ p : Program, (∀ id ∈ p.tasks, id ≤ wordMax) → ofText p.text = .ok p) ∧
      ∀ s p, ofText s = .ok p →
        ofText p.text = .ok p ∧ ∀ s' p', ofText s' = .ok p' → (p'.text = p.text ↔ p' = p) := by
  have hread {s : String} {p : Program} (h : ofText s = .ok p) : ofText p.text = .ok p :=
    ofText_text (le_of_mapM_ofSpelling h)
  refine ⟨fun p => ofText_text, fun s p hs => ⟨hread hs, fun s' p' hs' => ⟨fun htext => ?_, ?_⟩⟩⟩
  · have hsame := hread hs'
    rw [htext] at hsame
    exact Except.ok.inj (hsame.symm.trans (hread hs))
  · rintro rfl
    rfl

/-- A program that is not postfix, with numbers at the ends of their ranges, is read from its text;
a text with other blanks, a plus sign and a leading zero reads as it, and one in which a minus sign
stands alone does not and has another canonical form. -/
theorem text_round_trips_at_ends :
    let p : Program := [.operator .sub, .number Int64.minValue, .task wordMax]
    let p' : Program := [.operator .sub, .operator .sub, .number 9]
    (∀ id ∈ p.tasks, id ≤ wordMax) ∧ ofText p.text = .ok p ∧
      ofText "-\n-9223372036854775808\ttask:+018446744073709551615 " = .ok p ∧
      ofText "- - 9" = .ok p' ∧ (p'.text = p.text ↔ p' = p) := by
  intro p p'
  have hruns : runs "-\n-9223372036854775808\ttask:+018446744073709551615 ".toList =
      ["-".toList, "-9223372036854775808".toList, "task:+018446744073709551615".toList] := by
    decide +kernel
  have hloose : ofText "-\n-9223372036854775808\ttask:+018446744073709551615 " = .ok p := by
    rw [ofText, ofSpelling, hruns]
    rfl
  have hruns' : runs "- - 9".toList = ["-".toList, "-".toList, "9".toList] := by decide +kernel
  have hother : ofText "- - 9" = .ok p' := by
    rw [ofText, ofSpelling, hruns']
    rfl
  obtain ⟨hwritten, hread⟩ := text_round_trips
  have hwords : ∀ id ∈ p.tasks, id ≤ wordMax := by decide
  exact ⟨hwords, hwritten p hwords, hloose, hother, (hread _ p hloose).2 _ p' hother⟩

end Program

end Piecework
