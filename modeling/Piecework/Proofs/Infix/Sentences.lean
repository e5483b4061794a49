import Piecework.Proofs.Decimal
import Piecework.Proofs.Infix.Phrases
import Piecework.Proofs.Infix.Trees

/-!
# Sentences and their trees

The trees that texts spell are those without negative literals, and a text spells one
tree only: the one whose post-order is the program that the text compiles to. A
sentence ends in a digit or a closing parenthesis, spacing apart.
-/

namespace Piecework.Infix

/-- A literal that is not negative is spelled by its digits. -/
theorem spells_literal {v : Int64} (h : 0 ≤ v.toInt) :
    Spells .factor (.literal v) (Tree.spelling (.literal v)) := by
  obtain ⟨n, hn⟩ := Int.eq_ofNat_of_zero_le h
  have hdigits : Tree.spelling (.literal v) = Decimal.digits n := by
    simp [Tree.spelling, Decimal.signedDigits, hn]
  rw [hdigits]
  refine .digits (Decimal.isNumeral_digits n) ?_
  rw [Decimal.value_digits, ← signed?_toInt v, hn]

/-- A tree without negative literals is spelled with every operation in parentheses. -/
theorem spells_spelling {t : Tree} (h : t.IsUnsigned) : Spells .factor t t.spelling := by
  induction t with
  | literal v => exact spells_literal h
  | node op left right ihleft ihright =>
    have hleft := ihleft h.1
    have hright := ihright h.2
    refine .parentheses ?_
    cases op with
    | add | sub => exact .added (by simp) (.product (.factor hleft)) (.factor hright)
    | mul | div => exact .product (.multiplied (by simp) (.factor hleft) hright)

/-- Some text spells a tree without negative literals. -/
theorem exists_text_of_isUnsigned {t : Tree} (h : t.IsUnsigned) :
    ∃ text : String, Spells .sum t text.toList := by
  refine ⟨String.ofList t.spelling, ?_⟩
  rw [String.toList_ofList]
  exact .product (.factor (spells_spelling h))

/-- What is spelled has no negative literals. -/
theorem isUnsigned_of_spells {phrase : Phrase} {t : Tree} {cs : List Char}
    (h : Spells phrase t cs) : t.IsUnsigned := by
  induction h with
  | digits _ hv =>
    rw [Tree.IsUnsigned, toInt_of_signed? hv]
    exact Int.natCast_nonneg _
  | parentheses _ ih | factor _ ih | product _ ih | spaced _ _ _ ih => exact ih
  | multiplied _ _ _ ih ih' | added _ _ _ ih ih' => exact ⟨ih, ih'⟩

/-- The last character of what is spelled is spacing, a digit or a closing parenthesis. -/
theorem exists_getLast?_of_spells {phrase : Phrase} {t : Tree} {cs : List Char}
    (h : Spells phrase t cs) :
    ∃ c, cs.getLast? = some c ∧ (isSpacing c = true ∨ c.isDigit = true ∨ c = ')') := by
  induction h with
  | @digits ds v hds hv =>
    obtain ⟨hne, hall⟩ := Bool.and_eq_true_iff.mp hds
    have hnil : ds ≠ [] := by simpa using hne
    exact ⟨ds.getLast hnil, List.getLast?_eq_some_getLast hnil,
      .inr (.inl (List.all_eq_true.mp hall _ (List.getLast_mem hnil)))⟩
  | parentheses _ _ => exact ⟨')', List.getLast?_concat, .inr (.inr rfl)⟩
  | factor _ ih | product _ ih => exact ih
  | multiplied _ _ _ _ ih | added _ _ _ _ ih =>
    obtain ⟨c, hc, hkind⟩ := ih
    exact ⟨c, by simp [List.getLast?_append, List.getLast?_cons, hc], hkind⟩
  | @spaced _ _ cs before behind _ hbehind _ ih =>
    obtain ⟨c, hc, hkind⟩ := ih
    cases hlast : behind.getLast? with
    | none => exact ⟨c, by simp [List.getLast?_append, hlast, hc], hkind⟩
    | some d =>
      refine ⟨d, by simp [List.getLast?_append, hlast], .inl ?_⟩
      exact List.all_eq_true.mp hbehind d (List.mem_of_getLast? hlast)

/-- No sentence ends in an operator. -/
theorem not_isSentence_of_getLast? {text : String} {op : Operator}
    (h : text.toList.getLast? = some op.symbol) : ¬ IsSentence text := by
  rintro ⟨t, ht⟩
  obtain ⟨c, hc, hkind⟩ := exists_getLast?_of_spells ht
  obtain rfl := Option.some.inj (h.symm.trans hc)
  cases op <;> revert hkind <;> decide

/-! ## Compiled programs -/

/-- A compiled program is also the program of some sentence exactly when it is postfix. -/
theorem exists_sentence_iff {text : String} {p : Program} (h : compile text = .ok p) :
    (∃ sentence, IsSentence sentence ∧ compile sentence = .ok p) ↔ p.IsPostfix := by
  constructor
  · rintro ⟨sentence, ⟨t, ht⟩, hsentence⟩
    obtain rfl := Except.ok.inj ((compile_of_spells ht).symm.trans hsentence)
    exact operands?_program t 0
  · -- A postfix program has a tree, and the tree has a text of its own.
    intro hpost
    obtain ⟨t, rfl⟩ := Tree.exists_program_eq_iff.mpr ⟨hpost, tasks_eq_nil_of_compile h⟩
    have hunsigned : t.IsUnsigned :=
      Tree.isUnsigned_iff.mpr fun v hv => toInt_nonneg_of_compile h hv
    obtain ⟨sentence, hspells⟩ := exists_text_of_isUnsigned hunsigned
    exact ⟨sentence, ⟨t, hspells⟩, compile_of_spells hspells⟩

/-- The trees that texts spell are exactly those whose literals are not negative, and every text
that spells a tree compiles to the post-order of the tree and spells no other tree. -/
theorem compile_eq_postorder (t : Tree) :
    ((∃ text : String, Spells .sum t text.toList) ↔ t.IsUnsigned) ∧
      ∀ text : String, Spells .sum t text.toList →
        compile text = .ok t.program ∧ ∀ t', Spells .sum t' text.toList → t' = t := by
  refine ⟨⟨fun ⟨_, htext⟩ => isUnsigned_of_spells htext, exists_text_of_isUnsigned⟩,
    fun text htext => ⟨compile_of_spells htext, fun t' htext' => ?_⟩⟩
  have hprograms : t'.program = t.program :=
    Except.ok.inj ((compile_of_spells htext').symm.trans (compile_of_spells htext))
  exact Tree.program_injective hprograms

example : (compile " ( 007 - 2 )*3-((4))").toOption =
    some [.number 7, .number 2, .operator .sub, .number 3, .operator .mul, .number 4,
      .operator .sub] := by decide +kernel

end Piecework.Infix
