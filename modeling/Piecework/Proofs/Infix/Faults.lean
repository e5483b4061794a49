import Mathlib.Data.List.TakeWhile
import Piecework.Infix.Fault
import Piecework.Proofs.Decimal
import Piecework.Proofs.Infix.Inventory
import Piecework.Proofs.Infix.Lexemes

/-!
# The first fault decides

The compiler reads a text lexeme by lexeme and stops at the first that it cannot read. What it has
read by then contains no fault, and where it stops there is one: so the first fault of a text, by
its characters, is what the compiler reports. A text without a fault is refused only at its end,
when a parenthesis is still open or nothing has been read.
-/

namespace Piecework.Infix

/-! ## Characters -/

/-- A parenthesis is not material. -/
theorem not_isMaterial_of_parenthesis {c : Char} (h : c = '(' ∨ c = ')') : ¬ IsMaterial c := by
  rintro (hdigit | ⟨op, rfl⟩)
  · rcases h with rfl | rfl <;> exact absurd hdigit (by decide)
  · rcases h with h | h <;> exact absurd h (by cases op <;> decide)

/-- A character that is not read as an operator is material only if it is a digit. -/
theorem not_isMaterial_of_ofSymbol? {c : Char} (hdigit : c.isDigit = false)
    (h : Operator.ofSymbol? c = none) : ¬ IsMaterial c := by
  rintro (hc | ⟨op, rfl⟩)
  · exact Bool.false_ne_true (hdigit.symm.trans hc)
  · simp at h

/-- A spacing character has one byte and is neither material nor a parenthesis. -/
theorem spacing_cases {c : Char} (h : isSpacing c = true) :
    c.isDigit = false ∧ ¬ IsMaterial c ∧ c ≠ '(' ∧ c ≠ ')' ∧ c.utf8Size = 1 := by
  have hdigit : c.isDigit = false := isDigit_eq_false_of_isSpacing h
  simp only [isSpacing, Bool.or_eq_true, beq_iff_eq] at h
  refine ⟨hdigit, not_isMaterial_of_ofSymbol? hdigit ?_, ?_⟩
  · rcases h with (((rfl | rfl) | rfl) | rfl) | rfl <;> rfl
  · rcases h with (((rfl | rfl) | rfl) | rfl) | rfl <;> decide

/-- A digit is no parenthesis and has one byte. -/
theorem digit_cases {c : Char} (h : c.isDigit = true) : c ≠ '(' ∧ c ≠ ')' ∧ c.utf8Size = 1 := by
  refine ⟨by rintro rfl; contradiction, by rintro rfl; contradiction, ?_⟩
  have hle : c.toNat ≤ 57 := by
    simp only [Char.isDigit, Bool.and_eq_true, decide_eq_true_eq] at h
    exact h.2
  rw [Char.utf8Size_eq_one_iff]
  exact Nat.le_trans hle (by decide)

/-- The bytes of a text before one more character. -/
theorem utf8ByteSize_concat (before : List Char) (c : Char) :
    (String.ofList (before ++ [c])).utf8ByteSize = (String.ofList before).utf8ByteSize + c.utf8Size := by
  rw [String.ofList_append, String.utf8ByteSize_append, ← String.singleton_eq_ofList,
    String.utf8ByteSize_singleton]

/-- A digit takes one byte. -/
theorem utf8ByteSize_append_digits (before : List Char) {ds : List Char}
    (hds : ∀ c ∈ ds, c.isDigit = true) :
    (String.ofList (before ++ ds)).utf8ByteSize = (String.ofList before).utf8ByteSize + ds.length := by
  induction ds generalizing before with
  | nil => simp
  | cons d ds ih =>
    obtain ⟨hd, hds⟩ := List.forall_mem_cons.mp hds
    rw [List.append_cons, ih _ hds, utf8ByteSize_concat, (digit_cases hd).2.2, List.length_cons]
    omega

/-! ## Unmatched parentheses -/

/-- Only parentheses change the number of unmatched ones. -/
theorem matchParenthesis_of_ne {c : Char} (n : Nat) (h : c ≠ '(') (h' : c ≠ ')') :
    matchParenthesis n c = n := by
  rw [matchParenthesis, if_neg h, if_neg h']

/-- The unmatched parentheses of a text before some more characters. -/
theorem unmatched_append (before cs : List Char) :
    unmatched (before ++ cs) = cs.foldl matchParenthesis (unmatched before) :=
  List.foldl_append

/-- Digits do not change the number of unmatched parentheses. -/
theorem foldl_matchParenthesis_of_digits (n : Nat) {ds : List Char}
    (hds : ∀ c ∈ ds, c.isDigit = true) : ds.foldl matchParenthesis n = n := by
  induction ds with
  | nil => rfl
  | cons d ds ih =>
    obtain ⟨hd, hds⟩ := List.forall_mem_cons.mp hds
    rw [List.foldl_cons, matchParenthesis_of_ne n (digit_cases hd).1 (digit_cases hd).2.1, ih hds]

/-! ## Faults of one place -/

/-- Nothing is wrong where nothing stands. -/
theorem not_fault_nil (before : List Char) (e : InfixError) : ¬ Fault before [] e := by
  generalize hrest : ([] : List Char) = rest
  rintro (⟨-, hds, -, -⟩ | - | -)
  · obtain ⟨rfl, rfl⟩ := List.append_eq_nil_iff.mp hrest.symm
    simp [Decimal.isNumeral] at hds
  · contradiction
  · contradiction

/-- A text in front of which a numeral stands starts with a digit, and the other digits follow. -/
theorem exists_digits_of_cons_eq {c : Char} {cs ds behind : List Char}
    (hds : Decimal.isNumeral ds = true) (h : c :: cs = ds ++ behind) :
    c.isDigit = true ∧ ∃ ds', ds = c :: ds' ∧ (∀ d ∈ ds', d.isDigit = true) ∧ cs = ds' ++ behind := by
  obtain ⟨d, ds', rfl, hd, hall⟩ := Decimal.exists_cons_of_isNumeral hds
  rw [List.cons_append] at h
  obtain ⟨rfl, rfl⟩ := List.cons.inj h
  exact ⟨hd, ds', rfl, List.all_eq_true.mp hall, rfl⟩

/-- What is wrong at a digit is that the whole number starting there is too large. -/
theorem fault_digit_iff {before cs : List Char} {c : Char} {e : InfixError} (hc : c.isDigit = true) :
    Fault before (c :: cs) e ↔ (∀ d ∈ before.getLast?, d.isDigit = false) ∧
      Int64.maxValue.toInt < Decimal.value (c :: cs.takeWhile Char.isDigit) ∧
      e = .invalidNumber (String.ofList (c :: cs.takeWhile Char.isDigit)) := by
  constructor
  · generalize hrest : c :: cs = rest
    rintro (⟨hlast, hds, hbehind, hlarge⟩ | - | hstray)
    · next ds behind =>
      obtain ⟨-, ds, rfl, hall, rfl⟩ := exists_digits_of_cons_eq hds hrest
      rw [(StartsWithoutDigit.takeWhile_and_dropWhile hbehind hall).1]
      exact ⟨hlast, hlarge, rfl⟩
    · obtain rfl := (List.cons.inj hrest).1
      contradiction
    · obtain rfl := (List.cons.inj hrest).1
      exact absurd (.inl hc) hstray
  · rintro ⟨hlast, hlarge, rfl⟩
    have hds : Decimal.isNumeral (c :: cs.takeWhile Char.isDigit) = true := by
      simp [Decimal.isNumeral, hc]
    have hfault := Fault.oversized hlast hds (startsWithoutDigit_dropWhile cs) hlarge
    rwa [List.cons_append, List.takeWhile_append_dropWhile] at hfault

/-- What is wrong at a closing parenthesis is that it closes none. -/
theorem fault_closing_iff {before cs : List Char} {e : InfixError} :
    Fault before (')' :: cs) e ↔ unmatched before = 0 ∧ e = .mismatchedParentheses := by
  constructor
  · generalize hrest : ')' :: cs = rest
    rintro (⟨-, hds, -, -⟩ | hclosed | ⟨-, -, -, hc⟩)
    · exact absurd (exists_digits_of_cons_eq hds hrest).1 (by decide)
    · exact ⟨hclosed, rfl⟩
    · exact absurd (List.cons.inj hrest).1.symm hc
  · rintro ⟨hclosed, rfl⟩
    exact .closing hclosed

/-- What is wrong at any other character is that it has no meaning. -/
theorem fault_char_iff {before cs : List Char} {c : Char} {e : InfixError} (hdigit : c.isDigit = false)
    (hclosing : c ≠ ')') :
    Fault before (c :: cs) e ↔ ¬ IsMaterial c ∧ isSpacing c = false ∧ c ≠ '(' ∧
      e = .unexpectedCharacter c (String.ofList before).utf8ByteSize := by
  constructor
  · generalize hrest : c :: cs = rest
    rintro (⟨-, hds, -, -⟩ | - | ⟨hmaterial, hspacing, hopening, -⟩)
    · exact absurd (hdigit.symm.trans (exists_digits_of_cons_eq hds hrest).1) Bool.false_ne_true
    · exact absurd (List.cons.inj hrest).1 hclosing
    · obtain ⟨rfl, -⟩ := List.cons.inj hrest
      exact ⟨hmaterial, hspacing, hopening, rfl⟩
  · rintro ⟨hmaterial, hspacing, hopening, rfl⟩
    exact .stray hmaterial hspacing hopening hclosing

/-- At one place only one thing is wrong. -/
theorem Fault.unique {before rest : List Char} {e e' : InfixError} (h : Fault before rest e)
    (h' : Fault before rest e') : e = e' := by
  cases rest with
  | nil => exact absurd h (not_fault_nil before e)
  | cons c cs =>
    cases hdigit : c.isDigit with
    | true => exact ((fault_digit_iff hdigit).mp h).2.2.trans ((fault_digit_iff hdigit).mp h').2.2.symm
    | false =>
      by_cases hclosing : c = ')'
      · subst hclosing
        exact (fault_closing_iff.mp h).2.trans (fault_closing_iff.mp h').2.symm
      · exact ((fault_char_iff hdigit hclosing).mp h).2.2.2.trans
          ((fault_char_iff hdigit hclosing).mp h').2.2.2.symm

/-! ## The first fault -/

/-- The first fault of a text is one. -/
theorem FirstFault.unique {cs : List Char} {e e' : InfixError} (h : FirstFault cs e)
    (h' : FirstFault cs e') : e = e' := by
  obtain ⟨before, rest, rfl, hfault, hsound⟩ := h
  obtain ⟨before', rest', hsplit, hfault', hsound'⟩ := h'
  rcases Nat.lt_trichotomy before.length before'.length with hlt | heq | hgt
  · exact absurd hfault (hsound' _ _ _ rfl hlt)
  · obtain ⟨rfl, rfl⟩ := List.append_inj hsplit heq
    exact hfault.unique hfault'
  · exact absurd hfault' (hsound _ _ _ hsplit hgt)

/-- A text with a first fault has a fault. -/
theorem FirstFault.not_isFaultless {cs : List Char} {e : InfixError} (h : FirstFault cs e) :
    ¬ IsFaultless cs := by
  obtain ⟨before, rest, hsplit, hfault, -⟩ := h
  exact fun hnone => hnone before rest e hsplit hfault

/-- A text without a fault at the next place is sound one character further. -/
theorem IsSoundUpTo.concat {text before cs : List Char} {c : Char} (htext : text = before ++ c :: cs)
    (h : IsSoundUpTo before.length text) (hc : ∀ e, ¬ Fault before (c :: cs) e) :
    IsSoundUpTo (before ++ [c]).length text := by
  intro before' rest' e hsplit hlt
  rw [List.length_append, List.length_singleton] at hlt
  rcases Nat.lt_succ_iff_lt_or_eq.mp hlt with hlt | heq
  · exact h before' rest' e hsplit hlt
  · obtain ⟨rfl, rfl⟩ := List.append_inj (hsplit.symm.trans htext) heq
    exact hc e

/-- Behind a digit, further digits start no number. -/
theorem IsSoundUpTo.digits {text before ds cs : List Char} (htext : text = before ++ (ds ++ cs))
    (h : IsSoundUpTo before.length text) (hlast : ∃ d ∈ before.getLast?, d.isDigit = true)
    (hds : ∀ c ∈ ds, c.isDigit = true) : IsSoundUpTo (before ++ ds).length text := by
  induction ds generalizing before with
  | nil => simpa using h
  | cons c ds ih =>
    obtain ⟨hc, hds⟩ := List.forall_mem_cons.mp hds
    rw [List.append_cons]
    refine ih (by simpa using htext) (h.concat htext fun e hfault => ?_) ⟨c, by simp, hc⟩ hds
    obtain ⟨d, hd, hdigit⟩ := hlast
    exact Bool.false_ne_true ((((fault_digit_iff hc).mp hfault).1 d hd).symm.trans hdigit)

/-! ## Reading up to the first fault -/

/-- What the compiler knows of the text that it has read: how many parentheses are open, and whether
there was anything in it. -/
structure Scanned (before : List Char) (s : State) : Prop where
  openings : s.stack.count .opening = unmatched before
  material : s.held = [] ↔ ∀ c ∈ before, ¬ IsMaterial c

/-- At the start nothing has been read. -/
theorem Scanned.nil : Scanned [] {} := ⟨rfl, by simp [State.held]⟩

/-- Reading a lexeme keeps this knowledge, if the lexeme stands for the characters that were read. -/
theorem Scanned.read {before cs : List Char} {s s' : State} {x : Lexeme} (h : Scanned before s)
    (hread : s.read x = .ok s')
    (hcount : cs.foldl matchParenthesis (unmatched before) = x.enclose (unmatched before))
    (hmaterial : x.token? = none ↔ ∀ c ∈ cs, ¬ IsMaterial c) : Scanned (before ++ cs) s' := by
  obtain ⟨hheld, henclose⟩ := State.held_and_count_of_read hread
  refine ⟨?_, ?_⟩
  · rw [henclose, h.openings, unmatched_append, hcount]
  · have hempty : s'.held = [] ↔ x.token? = none ∧ s.held = [] := by
      rw [← List.perm_nil, hheld.congr_left, List.perm_nil, List.append_eq_nil_iff,
        Option.toList_eq_nil_iff]
    rw [hempty, hmaterial, h.material, List.forall_mem_append]
    exact And.comm

/-- Spacing adds nothing to this knowledge. -/
theorem Scanned.spacing {before : List Char} {s : State} {c : Char} (h : Scanned before s)
    (hc : isSpacing c = true) : Scanned (before ++ [c]) s := by
  obtain ⟨-, hmaterial, hopening, hclosing, -⟩ := spacing_cases hc
  refine ⟨?_, ?_⟩
  · rw [unmatched_append, h.openings]
    exact (matchParenthesis_of_ne _ hopening hclosing).symm
  · rw [h.material, List.forall_mem_append, List.forall_mem_singleton]
    exact (and_iff_left hmaterial).symm

/-- A run of digits is a number exactly if it is not too large. -/
theorem Lexeme.ofDigits_eq (ds : List Char) :
    Lexeme.ofDigits ds = if Int64.maxValue.toInt < Decimal.value ds then .oversized ds
      else .number (Int64.ofInt (Decimal.value ds)) := by
  have hlow : Int64.minValue.toInt ≤ Decimal.value ds :=
    Int.le_trans (by decide) (Int.natCast_nonneg _)
  split
  · next hlarge =>
    rw [Lexeme.ofDigits, signed?, if_neg fun h => absurd hlarge (Int.not_lt.mpr h.2)]
    rfl
  · next hsmall =>
    rw [Lexeme.ofDigits, signed?, if_pos ⟨hlow, Int.not_lt.mp hsmall⟩]
    rfl

/-- A run of digits is read exactly if there is no fault at its first one. -/
theorem read_digits {before : List Char} {s : State} {c : Char} (cs : List Char) (h : Scanned before s)
    (hc : c.isDigit = true) (hlast : ∀ d ∈ before.getLast?, d.isDigit = false) :
    (∃ e, s.read (.ofDigits (c :: cs.takeWhile Char.isDigit)) = .error e ∧ Fault before (c :: cs) e) ∨
      ∃ s', s.read (.ofDigits (c :: cs.takeWhile Char.isDigit)) = .ok s' ∧
        Scanned (before ++ c :: cs.takeWhile Char.isDigit) s' ∧ ∀ e, ¬ Fault before (c :: cs) e := by
  rw [Lexeme.ofDigits_eq]
  split
  · next hlarge => exact .inl ⟨_, rfl, (fault_digit_iff hc).mpr ⟨hlast, hlarge, rfl⟩⟩
  · next hsmall =>
    have hds : ∀ d ∈ c :: cs.takeWhile Char.isDigit, d.isDigit = true :=
      List.forall_mem_cons.mpr ⟨hc, fun d hd => List.mem_takeWhile_imp hd⟩
    refine .inr ⟨_, rfl, h.read (x := .number _) rfl (foldl_matchParenthesis_of_digits _ hds) ?_,
      fun e he => hsmall ((fault_digit_iff hc).mp he).2.1⟩
    exact ⟨nofun, fun hnone => absurd (.inl hc) (hnone c List.mem_cons_self)⟩

/-- Any other character is read exactly if there is no fault at it. -/
theorem read_char {before : List Char} {s : State} {c : Char} (cs : List Char) (h : Scanned before s)
    (hdigit : c.isDigit = false) (hspacing : isSpacing c = false) :
    (∃ e, s.read (.ofChar (String.ofList before).utf8ByteSize c) = .error e ∧ Fault before (c :: cs) e) ∨
      ∃ s', s.read (.ofChar (String.ofList before).utf8ByteSize c) = .ok s' ∧
        Scanned (before ++ [c]) s' ∧ ∀ e, ¬ Fault before (c :: cs) e := by
  unfold Lexeme.ofChar
  split
  · next hopening =>
    subst hopening
    refine .inr ⟨_, rfl, h.read (x := .opening) rfl rfl ?_, fun e he => ?_⟩
    · simp [Lexeme.token?, not_isMaterial_of_parenthesis]
    · exact ((fault_char_iff hdigit (by decide)).mp he).2.2.1 rfl
  · next hopening =>
    split
    · next hclosing =>
      subst hclosing
      by_cases hclosed : unmatched before = 0
      · exact .inl ⟨_, State.close_of_count_eq_zero _ (h.openings.trans hclosed), .closing hclosed⟩
      · obtain ⟨s', hread, -, -⟩ := State.exists_close s.emitted (h.openings.symm ▸ hclosed)
        refine .inr ⟨s', hread, h.read (x := .closing) hread rfl ?_, fun e he => ?_⟩
        · simp [Lexeme.token?, not_isMaterial_of_parenthesis]
        · exact hclosed (fault_closing_iff.mp he).1
    · next hclosing =>
      split
      · next op hop =>
        obtain rfl := Operator.eq_symbol_of_ofSymbol? hop
        have hmaterial : IsMaterial op.symbol := .inr ⟨op, rfl⟩
        refine .inr ⟨_, rfl, h.read (x := .operator op) rfl (matchParenthesis_of_ne _ hopening hclosing)
          ?_, fun e he => ((fault_char_iff hdigit hclosing).mp he).1 hmaterial⟩
        exact ⟨nofun, fun hnone => absurd hmaterial (hnone _ List.mem_cons_self)⟩
      · next hop =>
        exact .inl ⟨_, rfl, (fault_char_iff hdigit hclosing).mpr
          ⟨not_isMaterial_of_ofSymbol? hdigit hop, hspacing, hopening, rfl⟩⟩

/-- What reading a text tells about it. -/
def Judged (cs : List Char) : Except InfixError State → Prop
  | .error e => FirstFault cs e
  | .ok s => IsFaultless cs ∧ Scanned cs s

/-- Reading the rest of a text judges it, if no fault lies behind and no number is cut in two. -/
theorem judged_readAll {text before cs : List Char} {position : Nat} {s : State}
    (htext : text = before ++ cs) (hposition : position = (String.ofList before).utf8ByteSize)
    (hs : Scanned before s) (hsound : IsSoundUpTo before.length text)
    (hcut : StartsWithoutDigit cs ∨ ∀ d ∈ before.getLast?, d.isDigit = false) :
    Judged text (readAll s (lexemes position cs)) := by
  fun_induction lexemes position cs generalizing before s with
  | case1 position =>
    rw [List.append_nil] at htext
    subst htext
    refine ⟨fun before' rest e hsplit hfault => ?_, hs⟩
    rcases eq_or_ne rest [] with rfl | hrest
    · exact not_fault_nil _ _ hfault
    · refine hsound before' rest e hsplit ?_ hfault
      rw [hsplit, List.length_append]
      exact Nat.lt_add_of_pos_right (List.length_pos_iff.mpr hrest)
  | case2 position c cs hc ds =>
    rename_i ih
    have hlast := hcut.resolve_left fun h => Bool.false_ne_true ((h c rfl).symm.trans hc)
    have hds : ∀ d ∈ cs.takeWhile Char.isDigit, d.isDigit = true := fun d hd =>
      List.mem_takeWhile_imp hd
    have hrun : text = (before ++ [c]) ++ (cs.takeWhile Char.isDigit ++ cs.dropWhile Char.isDigit) := by
      rw [List.takeWhile_append_dropWhile, htext, List.append_cons]
    rw [readAll]
    rcases read_digits cs hs hc hlast with ⟨e, hread, hfault⟩ | ⟨s', hread, hs', hsafe⟩
    · rw [hread]
      exact ⟨before, c :: cs, htext, hfault, hsound⟩
    · rw [hread]
      refine ih ?_ ?_ hs' ?_ (.inl (startsWithoutDigit_dropWhile cs))
      · rw [hrun, List.append_assoc, List.append_assoc]
        rfl
      · rw [hposition, utf8ByteSize_append_digits before (List.forall_mem_cons.mpr ⟨hc, hds⟩)]
      · rw [List.append_cons]
        exact (hsound.concat htext hsafe).digits hrun ⟨c, by simp, hc⟩ hds
  | case3 position c cs _ hspacing ih =>
    obtain ⟨hdigit, hmaterial, hopening, hclosing, hsize⟩ := spacing_cases hspacing
    refine ih (by rw [htext, List.append_cons]) ?_ (hs.spacing hspacing) ?_ (.inr ?_)
    · rw [hposition, utf8ByteSize_concat, hsize]
    · refine hsound.concat htext fun e hfault => ?_
      have hstray := ((fault_char_iff hdigit hclosing).mp hfault).2.1
      exact Bool.false_ne_true (hstray.symm.trans hspacing)
    · simpa using hdigit
  | case4 position c cs hc hspacing ih =>
    have hdigit : c.isDigit = false := eq_false_of_ne_true hc
    rw [hposition] at ih ⊢
    rw [readAll]
    rcases read_char cs hs hdigit (eq_false_of_ne_true hspacing) with
      ⟨e, hread, hfault⟩ | ⟨s', hread, hs', hsafe⟩
    · rw [hread]
      exact ⟨before, c :: cs, htext, hfault, hsound⟩
    · rw [hread]
      exact ih (by rw [htext, List.append_cons]) (utf8ByteSize_concat before c).symm hs'
        (hsound.concat htext hsafe) (.inr (by simpa using hdigit))

/-! ## The end of the text -/

/-- The end of the text finds what is still open, and whether anything has been read. -/
theorem finish_cases {cs : List Char} {s : State} (h : Scanned cs s) :
    (unmatched cs ≠ 0 ∧ s.finish = .error .mismatchedParentheses) ∨
      (unmatched cs = 0 ∧ (∀ c ∈ cs, ¬ IsMaterial c) ∧ s.finish = .error .empty) ∨
      (unmatched cs = 0 ∧ (∃ c ∈ cs, IsMaterial c) ∧ ∃ p, s.finish = .ok p) := by
  rw [← h.openings]
  by_cases hopen : s.stack.count .opening = 0
  · obtain ⟨out, hdrain, hperm⟩ := State.exists_drain s.emitted hopen
    have hempty : out = [] ↔ ∀ c ∈ cs, ¬ IsMaterial c := by
      rw [← h.material, ← List.perm_nil, hperm.congr_left, List.perm_nil]
    right
    rw [State.finish, hdrain]
    cases out with
    | nil => exact .inl ⟨hopen, hempty.mp rfl, rfl⟩
    | cons t out =>
      have hsome : ∃ c ∈ cs, IsMaterial c := by
        by_contra hnone
        exact List.cons_ne_nil t out (hempty.mpr fun c hc hm => hnone ⟨c, hc, hm⟩)
      exact .inr ⟨hopen, hsome, _, rfl⟩
  · left
    rw [State.finish, State.drain_of_count_ne_zero _ hopen]
    exact ⟨hopen, rfl⟩

/-- The error of a text is its first fault; without a fault it is refused only when a parenthesis
is left open, or else when it has neither a digit nor an operator; any other text compiles. -/
theorem first_fault_decides (text : String) :
    (∀ e, compile text = .error e ↔ FirstFault text.toList e ∨
      IsFaultless text.toList ∧
        (unmatched text.toList ≠ 0 ∧ e = .mismatchedParentheses ∨
          unmatched text.toList = 0 ∧ (∀ c ∈ text.toList, ¬ IsMaterial c) ∧ e = .empty)) ∧
    ((∃ p, compile text = .ok p) ↔
      IsFaultless text.toList ∧ unmatched text.toList = 0 ∧ ∃ c ∈ text.toList, IsMaterial c) := by
  have hjudged : Judged text.toList (readAll {} (lexemes 0 text.toList)) :=
    judged_readAll rfl rfl .nil (fun _ _ _ _ hlt => absurd hlt (Nat.not_lt_zero _)) (.inr nofun)
  rw [compile]
  cases hread : readAll {} (lexemes 0 text.toList) with
  | error e =>
    rw [hread] at hjudged
    have hfaulty := hjudged.not_isFaultless
    refine ⟨fun e' => ⟨fun h => .inl (Except.error.inj h ▸ hjudged), ?_⟩, nofun, fun h => absurd h.1 hfaulty⟩
    rintro (hfirst | hend)
    · rw [hjudged.unique hfirst]
    · exact absurd hend.1 hfaulty
  | ok s =>
    rw [hread] at hjudged
    obtain ⟨hfaultless, hs⟩ := hjudged
    have hnofirst : ∀ e, ¬ FirstFault text.toList e := fun e h => h.not_isFaultless hfaultless
    rcases finish_cases hs with ⟨hopen, hend⟩ | ⟨hclosed, hnone, hend⟩ | ⟨hclosed, hsome, p, hend⟩
    · simp [hend, hfaultless, hnofirst, hopen, eq_comm]
    · have hnosome : ¬ ∃ c ∈ text.toList, IsMaterial c := fun ⟨c, hc, hm⟩ => hnone c hc hm
      simpa [hend, hfaultless, hnofirst, hclosed, hnosome, eq_comm] using hnone
    · have hnotnone : ¬ ∀ c ∈ text.toList, ¬ IsMaterial c := fun hnone =>
        hsome.elim fun c hc => hnone c hc.1 hc.2
      simp [hend, hfaultless, hnofirst, hclosed, hsome, hnotnone]

example : compile "(1+é))*9223372036854775808" = .error (.unexpectedCharacter 'é' 3) := by cbv

end Piecework.Infix
