import Mathlib.Data.List.Infix
import Piecework.Proofs.Infix.Inventory
import Piecework.Proofs.Infix.Output
import Piecework.Proofs.Infix.Scan
import Piecework.Proofs.Runs

/-!
# Operands and operators

The compiler moves operators behind operands, never before them. It emits every number as it reads
it and keeps every operator back, so when an operator is emitted the output has all numbers of the
text so far, and fewer operators than the text. Text that spells no expression is no exception:
the scan is followed here, not a tree.
-/

namespace Piecework.Infix

/-- The operators of a program, in order. -/
def operators (p : List Token) : List Operator :=
  p.filterMap fun
    | .operator op => some op
    | _ => none

/-- The operators of a program are those that it counts. -/
theorem length_operators (p : Program) : (operators p).length = p.operatorCount := by
  induction p with
  | nil => rfl
  | cons t p ih => cases t <;> simpa [operators, Program.operatorCount] using ih

/-- An operator occurs among the operators of a program as often as in the program. -/
theorem count_operators (op : Operator) (p : Program) :
    (operators p).count op = p.count (.operator op) := by
  induction p with
  | nil => rfl
  | cons t p ih => cases t <;> simpa [operators, List.count_cons] using ih

/-- A symbol occurs in a text as often as its operator is read there. -/
theorem count_filterMap_ofSymbol? (op : Operator) (cs : List Char) :
    (cs.filterMap Operator.ofSymbol?).count op = cs.count op.symbol := by
  induction cs with
  | nil => rfl
  | cons c cs ih =>
    rw [List.filterMap_cons, List.count_cons, ← ih]
    cases hop : Operator.ofSymbol? c with
    | none =>
      have hne : c ≠ op.symbol := by
        rintro rfl
        simp at hop
      simp [hne]
    | some op' =>
      rw [Operator.eq_symbol_of_ofSymbol? hop, List.count_cons]
      cases op <;> cases op' <;> rfl

/-- Turning a program around leaves its operators. -/
theorem operators_reverse (p : Program) : operators p.reverse = (operators p).reverse :=
  List.filterMap_reverse

/-- Where no symbol of an operator stands there is no operator. -/
theorem ofSymbol?_eq_none {c : Char} (h : ∀ op : Operator, c ≠ op.symbol) :
    Operator.ofSymbol? c = none :=
  Option.eq_none_iff_forall_ne_some.mpr fun op hop => h op (Operator.eq_symbol_of_ofSymbol? hop)

/-! ## Emission -/

namespace State

/-- Released operators stand on top of the output. -/
theorem suffix_release (op : Operator) (out : List Token) (stack : List Pending) :
    out <:+ (release op out stack).emitted := by
  fun_induction release op out stack with
  | case1 out top rest _ ih => exact (List.suffix_cons _ _).trans ih
  | case2 => exact List.suffix_rfl
  | case3 => exact List.suffix_rfl

/-- The operators between two parentheses come to stand on top of the output. -/
theorem suffix_close {out : List Token} {stack : List Pending} {s : State}
    (h : close out stack = .ok s) : out <:+ s.emitted := by
  fun_induction close out stack with
  | case1 out top rest ih => exact (List.suffix_cons _ _).trans (ih h)
  | case2 out rest =>
    obtain rfl := Except.ok.inj h
    exact List.suffix_rfl
  | case3 => contradiction

/-- The operators that are left come to stand on top of the output. -/
theorem suffix_drain {out out' : List Token} {stack : List Pending}
    (h : drain out stack = .ok out') : out <:+ out' := by
  fun_induction drain out stack with
  | case1 out top rest ih => exact (List.suffix_cons _ _).trans (ih h)
  | case2 => contradiction
  | case3 out =>
    obtain rfl := Except.ok.inj h
    exact List.suffix_rfl

/-- What is read comes to stand on top of the output. -/
theorem suffix_read {s s' : State} {x : Lexeme} (h : s.read x = .ok s') :
    s.emitted <:+ s'.emitted := by
  cases x with
  | number v =>
    obtain rfl := Except.ok.inj h
    exact List.suffix_cons _ _
  | operator op =>
    obtain rfl := Except.ok.inj h
    exact suffix_release op s.emitted s.stack
  | opening =>
    obtain rfl := Except.ok.inj h
    exact List.suffix_rfl
  | closing => exact suffix_close h
  | oversized ds | stray c position => contradiction

end State

/-! ## Numbers before operators -/

/-- An output, latest first, has as many operands below each of its operators as stand in any part
of the text, from its start, with as many operators. -/
def Trails (text : List Char) (out : List Token) : Prop :=
  ∀ op below before rs, .operator op :: below <:+ out → before <+: text →
    HasRuns Char.isDigit before rs →
    (before.filterMap Operator.ofSymbol?).length ≤ (operators below).length →
    rs.length ≤ (leaves below).length

/-- Operators may be emitted when all numbers of the text have been. -/
theorem Trails.emit {text : List Char} {out out' : List Token} {rs : List (List Char)}
    (h : Trails text out) (hruns : HasRuns Char.isDigit text rs)
    (hall : rs.length ≤ (leaves out).length) (hsuffix : out <:+ out') : Trails text out' := by
  intro op below before rs' hbelow hbefore hruns' hcount
  rcases List.suffix_or_suffix_of_suffix hsuffix hbelow with hlower | hhigher
  · rcases List.suffix_cons_iff.mp hlower with rfl | hlower
    · exact h op below before rs' List.suffix_rfl hbefore hruns' hcount
    · exact (hruns'.length_le_of_prefix hruns hbefore).trans
        (hall.trans (hlower.sublist.filter _).length_le)
  · exact h op below before rs' hhigher hbefore hruns' hcount

/-- More text brings no operator that is not behind those that have been emitted. -/
theorem Trails.extend {text : List Char} {out : List Token} (h : Trails text out)
    (hcount : (operators out).length ≤ (text.filterMap Operator.ofSymbol?).length)
    (more : List Char) : Trails (text ++ more) out := by
  intro op below before rs hbelow hbefore hruns hfew
  rcases List.prefix_or_prefix_of_prefix hbefore (List.prefix_append text more) with hshort | hlong
  · exact h op below before rs hbelow hshort hruns hfew
  · -- such a part has all operators of the text, and one more than are below an emitted one
    have hbelow' : (operators (.operator op :: below)).length ≤ (operators out).length :=
      (hbelow.sublist.filterMap _).length_le
    rw [show operators (.operator op :: below) = op :: operators below from rfl,
      List.length_cons] at hbelow'
    have hbefore' := (hlong.sublist.filterMap Operator.ofSymbol?).length_le
    omega

/-- A number on top of the output is below no operator. -/
theorem Trails.number {text : List Char} {out : List Token} (h : Trails text out) (v : Int64) :
    Trails text (.number v :: out) := by
  intro op below before rs hbelow
  rcases List.suffix_cons_iff.mp hbelow with heq | hbelow
  · simp at heq
  · exact h op below before rs hbelow

/-! ## The scan -/

/-- What the scan over a text has done with its operands and operators. -/
structure Sorted (text : List Char) (s : State) : Prop where
  literals : ∃ (rs : List (List Char)) (vs : List Int64), HasRuns Char.isDigit text rs ∧
    vs.map Int64.toInt = rs.map (fun ds => (Decimal.value ds : Int)) ∧
    leaves s.emitted = (vs.map Token.number).reverse
  operators_perm : (operators s.held).Perm (text.filterMap Operator.ofSymbol?)
  trails : Trails text s.emitted

variable {text : List Char} {s s' : State}

/-- Emitted operators have been read. -/
theorem Sorted.length_operators_emitted_le (h : Sorted text s) :
    (operators s.emitted).length ≤ (text.filterMap Operator.ofSymbol?).length := by
  rw [← h.operators_perm.length_eq]
  exact ((List.sublist_append_right _ _).filterMap _).length_le

/-- All numbers of the text have been emitted. -/
theorem Sorted.length_le_leaves {rs : List (List Char)} (h : Sorted text s)
    (hruns : HasRuns Char.isDigit text rs) : rs.length ≤ (leaves s.emitted).length := by
  obtain ⟨rs', vs, hruns', hvalues, hemitted⟩ := h.literals
  have hlength : vs.length = rs'.length := by simpa using congrArg List.length hvalues
  simp [hruns.unique hruns', hemitted, hlength]

/-- At the start there is nothing to sort. -/
theorem Sorted.start : Sorted [] {} where
  literals := ⟨[], [], .none nofun, rfl, rfl⟩
  operators_perm := .nil
  trails := fun _ _ _ _ hbelow => absurd (List.suffix_nil.mp hbelow) (List.cons_ne_nil _ _)

/-- A number is emitted at once. -/
theorem Sorted.number {ds : List Char} {v : Int64} (h : Sorted text s)
    (hlast : ∀ c ∈ text.getLast?, c.isDigit = false) (hne : ds ≠ [])
    (hds : ∀ c ∈ ds, c.isDigit = true) (hv : signed? (Decimal.value ds) = some v) :
    Sorted (text ++ ds) { s with emitted := .number v :: s.emitted } := by
  obtain ⟨rs, vs, hruns, hvalues, hleaves⟩ := h.literals
  have hone : HasRuns Char.isDigit ds [ds] := by
    simpa using @HasRuns.cons _ [] ds [] [] nofun hne hds nofun (.none nofun)
  have hnone : ds.filterMap Operator.ofSymbol? = [] :=
    List.filterMap_eq_nil_iff.mpr fun c hc => ofSymbol?_eq_none fun op hop => by
      have hdigit := hop ▸ hds c hc
      cases op <;> contradiction
  refine ⟨⟨rs ++ [ds], vs ++ [v], hruns.append hone (.inl hlast), ?_, ?_⟩, ?_, ?_⟩
  · simp [hvalues, toInt_of_signed? hv]
  · rw [List.map_append, List.reverse_append, ← hleaves]
    rfl
  · rw [List.filterMap_append, hnone, List.append_nil]
    refine .trans ?_ h.operators_perm
    exact (State.held_and_count_of_read (s := s) (x := .number v) rfl).1.filterMap _
  · exact (h.trails.extend h.length_operators_emitted_le ds).number v

/-- Any other character may add an operator to those that are held, and operators that are held may
be emitted. -/
theorem Sorted.char {c : Char} (h : Sorted text s) (hc : c.isDigit = false)
    (hheld : s'.held.Perm (((Operator.ofSymbol? c).map Token.operator).toList ++ s.held))
    (hleaves : leaves s'.emitted = leaves s.emitted) (hsuffix : s.emitted <:+ s'.emitted) :
    Sorted (text ++ [c]) s' := by
  obtain ⟨rs, vs, hruns, hvalues, hemitted⟩ := h.literals
  have hother : HasRuns Char.isDigit [c] [] := .none (by simpa using hc)
  have hruns' : HasRuns Char.isDigit (text ++ [c]) rs := by
    simpa using hruns.append hother (.inr (by simpa using hc))
  refine ⟨⟨rs, vs, hruns', hvalues, hleaves.trans hemitted⟩, ?_, ?_⟩
  · refine (hheld.filterMap _).trans ?_
    cases hop : Operator.ofSymbol? c with
    | none => simpa [hop, operators] using h.operators_perm
    | some op =>
      simpa [hop, operators] using
        (h.operators_perm.cons op).trans (List.perm_append_singleton op _).symm
  · exact (h.trails.extend h.length_operators_emitted_le [c]).emit hruns'
      (h.length_le_leaves hruns) hsuffix

/-- Reading a lexeme of one character keeps operands and operators sorted. -/
theorem Sorted.read {c : Char} {x : Lexeme} (h : Sorted text s) (hc : c.isDigit = false)
    (hliteral : x.literal? = none) (htoken : x.token? = (Operator.ofSymbol? c).map Token.operator)
    (hread : s.read x = .ok s') : Sorted (text ++ [c]) s' := by
  refine h.char hc (htoken ▸ (State.held_and_count_of_read hread).1) ?_ (State.suffix_read hread)
  rw [leaves_read hread, hliteral]
  rfl

/-- Every scan keeps operands and operators sorted. -/
theorem Scans.sorted (h : Scans text s) : Sorted text s := by
  induction h with
  | start => exact .start
  | number _ hlast hne hds hv ih => exact ih.number hlast hne hds hv
  | @spacing before s c _ hc ih =>
    have hnone : Operator.ofSymbol? c = none := ofSymbol?_eq_none fun op hop => by
      rw [hop] at hc
      cases op <;> contradiction
    exact ih.char (isDigit_eq_false_of_isSpacing hc) (by simp [hnone]) rfl List.suffix_rfl
  | @operator before s s' op _ hread ih =>
    exact ih.read (by cases op <;> decide) rfl (by rw [Operator.ofSymbol?_symbol]; rfl) hread
  | opening _ ih => exact ih.read (x := .opening) (by decide) rfl rfl rfl
  | closing _ hclose ih => exact ih.read (x := .closing) (by decide) rfl rfl hclose

/-! ## Compiled text -/

/-- Text that compiles, well-formed or not, loses and gains no operand and no operator. The operands
of the program are the values of the longest runs of digits of the text, in the order of the text;
none of them waits for a task. Every operator occurs in the program as often as its symbol in the
text. Before the operator of the program that has as many operators before it as a symbol of the
text, there are at least as many operands as before the symbol. -/
theorem operands_stay_ahead {text : String} {p : Program} (h : compile text = .ok p) :
    (∃ (rs : List (List Char)) (vs : List Int64),
      (∀ rs', HasRuns Char.isDigit text.toList rs' ↔ rs' = rs) ∧
      vs.map Int64.toInt = rs.map (fun ds => (Decimal.value ds : Int)) ∧
      leaves p = vs.map .number) ∧
    p.tasks = [] ∧
    (∀ op : Operator, p.count (.operator op) = text.toList.count op.symbol) ∧
    ∀ (before behind : List Char) (op : Operator) (out rest : Program) (op' : Operator)
      (rs : List (List Char)), text.toList = before ++ op.symbol :: behind →
      p = out ++ .operator op' :: rest →
      (before.filterMap Operator.ofSymbol?).length = out.operatorCount →
      HasRuns Char.isDigit before rs → rs.length ≤ (leaves out).length := by
  obtain ⟨s, hscan, hdrain⟩ := exists_scans_of_compile h
  have hs := hscan.sorted
  obtain ⟨rs, vs, hruns, hvalues, hemitted⟩ := hs.literals
  have hleaves := leaves_drain hdrain
  rw [hemitted, leaves, List.filter_reverse] at hleaves
  have hdrained : (operators p).Perm (text.toList.filterMap Operator.ofSymbol?) := by
    have hperm := ((State.held_of_drain hdrain).filterMap _).trans hs.operators_perm
    exact (List.reverse_perm _).symm.trans (operators_reverse p ▸ hperm)
  have htrails : Trails text.toList p.reverse :=
    hs.trails.emit hruns (hs.length_le_leaves hruns) (State.suffix_drain hdrain)
  refine ⟨⟨rs, vs, fun rs' => ⟨fun h => h.unique hruns, ?_⟩, hvalues,
    List.reverse_injective hleaves⟩, tasks_eq_nil_of_compile h, fun op => ?_, ?_⟩
  · rintro rfl
    exact hruns
  · rw [← count_operators, hdrained.count_eq, count_filterMap_ofSymbol?]
  · rintro before behind op out rest op' rs' htext rfl hcount hruns'
    have hbelow : .operator op' :: out.reverse <:+ (out ++ .operator op' :: rest).reverse :=
      ⟨rest.reverse, by simp⟩
    have hle := htrails op' out.reverse before rs' hbelow ⟨_, htext.symm⟩ hruns' <| by
      rw [operators_reverse, List.length_reverse, length_operators, hcount]
    rwa [leaves, List.filter_reverse, List.length_reverse] at hle

/-- In a text that spells no expression, two numbers stand before the product, and four before its
place in the program. -/
theorem operands_stay_ahead_misplaced :
    let out : Program := [.number 1, .number 2, .operator .add, .number 3, .number 4]
    let p : Program := out ++ [.operator .mul]
    compile "(1 2+)*3 4" = .ok p ∧
      (∀ op : Operator, p.count (.operator op) = "(1 2+)*3 4".toList.count op.symbol) ∧
      ∀ rs, HasRuns Char.isDigit "(1 2+)".toList rs → rs.length ≤ (leaves out).length := by
  intro out p
  have hlexemes : lexemes 0 "(1 2+)*3 4".toList = [.opening, .number 1, .number 2, .operator .add,
      .closing, .operator .mul, .number 3, .number 4] := by decide +kernel
  have hcompile : compile "(1 2+)*3 4" = .ok p := by
    rw [compile, hlexemes]
    rfl
  obtain ⟨-, -, hcounts, hahead⟩ := operands_stay_ahead hcompile
  exact ⟨hcompile, hcounts, fun rs hruns =>
    hahead "(1 2+)".toList "3 4".toList .mul out [] .mul rs (by decide) rfl (by decide) hruns⟩

end Piecework.Infix
