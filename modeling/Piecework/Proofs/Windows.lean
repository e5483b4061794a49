import Piecework.Proofs.Cut
import Piecework.Program.Window

/-!
# Windows of a program

A token behind a program adds a window exactly when it is an operator and two known values
stand last. So the list of the windows, and the program with all of them replaced, can be
followed token by token.
-/

namespace Piecework.Program

/-! ## The list of windows -/

/-- The windows of a program are the one at its beginning and those behind its first token. -/
theorem windows_cons (t : Token) (p : Program) :
    windows (t :: p) = (window? (t :: p)).toList ++ windows p := by
  rw [windows, List.tails_cons, List.filterMap_cons]
  cases window? (t :: p) <;> rfl

/-- The window with which a program begins is the first of its windows. -/
theorem windows_of_window (a b : Int64) (op : Operator) (p : Program) :
    windows (.number a :: .number b :: .operator op :: p) = (op, a, b) :: windows p := by
  simp only [windows_cons, window?, Option.toList_some, Option.toList_none, List.nil_append,
    List.singleton_append]

/-- A program begins with a window exactly when these three tokens stand first. -/
theorem window?_eq_some_iff {p : Program} {op : Operator} {a b : Int64} :
    window? p = some (op, a, b) ↔ [.number a, .number b, .operator op] <+: p := by
  constructor
  · intro h
    unfold window? at h
    split at h
    · next behind =>
      obtain ⟨rfl, rfl, rfl⟩ : _ ∧ _ ∧ _ := by simpa using h
      exact ⟨behind, rfl⟩
    · contradiction
  · rintro ⟨behind, rfl⟩
    rfl

/-- The listed windows are all that the program contains. -/
theorem mem_windows_iff {p : Program} {op : Operator} {a b : Int64} :
    (op, a, b) ∈ p.windows ↔ [.number a, .number b, .operator op] <:+: p := by
  simp only [windows, List.mem_filterMap, List.mem_tails, window?_eq_some_iff,
    List.infix_iff_prefix_suffix]
  exact ⟨fun ⟨q, hsuffix, hprefix⟩ => ⟨q, hprefix, hsuffix⟩,
    fun ⟨q, hprefix, hsuffix⟩ => ⟨q, hsuffix, hprefix⟩⟩

/-- A program is built from behind by tokens that begin no window and by whole windows. -/
@[elab_as_elim]
theorem windowwise {motive : Program → Prop} (nil : motive [])
    (window : ∀ a b op p, motive p → motive (.number a :: .number b :: .operator op :: p))
    (token : ∀ t p, window? (t :: p) = none → motive p → motive (t :: p)) (p : Program) :
    motive p := by
  induction hlength : p.length using Nat.strong_induction_on generalizing p with
  | _ n ih =>
    subst hlength
    match p with
    | [] => exact nil
    | t :: p =>
      cases hfirst : window? (t :: p) with
      | none => exact token t p hfirst (ih p.length (Nat.lt_succ_self _) p rfl)
      | some w =>
        obtain ⟨op, a, b⟩ := w
        obtain ⟨behind, hp⟩ := window?_eq_some_iff.mp hfirst
        rw [← hp] at ih ⊢
        have hshorter : behind.length < behind.length + 3 := Nat.lt_add_of_pos_right (by decide)
        exact window a b op behind (ih behind.length hshorter behind rfl)

/-! ## One more token -/

/-- A token behind a program makes an operation ready: it is an operator, and the program ends with
two known values. -/
def Readies (p : Program) (t : Token) : Prop :=
  ∃ a b op, t = .operator op ∧ [.number a, .number b] <:+ p

/-- What makes an operation ready behind a part of a program does so behind the whole. -/
theorem Readies.cons {p : Program} {t : Token} (h : Readies p t) (c : Token) :
    Readies (c :: p) t := by
  obtain ⟨a, b, op, ht, hend⟩ := h
  exact ⟨a, b, op, ht, hend.trans (List.suffix_cons c p)⟩

/-- A program begins as before when a token behind it makes nothing ready. -/
theorem window?_concat {p : Program} {t : Token} (h : ¬ Readies p t) :
    window? (p ++ [t]) = window? p := by
  match p with
  | [] => cases t <;> rfl
  | [c] => cases c <;> cases t <;> rfl
  | c :: d :: e :: p => cases c <;> cases d <;> cases e <;> rfl
  | [c, d] =>
    cases c with
    | operator op => rfl
    | task id => rfl
    | number a =>
      cases d with
      | operator op => rfl
      | task id => rfl
      | number b =>
        cases t with
        | number v => rfl
        | task id => rfl
        | operator op => exact absurd ⟨a, b, op, rfl, List.suffix_rfl⟩ h

/-- A token that makes nothing ready adds no window. -/
theorem windows_concat {p : Program} {t : Token} (h : ¬ Readies p t) :
    windows (p ++ [t]) = windows p := by
  induction p with
  | nil => cases t <;> rfl
  | cons c p ih =>
    rw [List.cons_append, windows_cons, windows_cons, ih fun hp => h (hp.cons c),
      ← List.cons_append, window?_concat h]

/-- A program begins as before with a window behind it. -/
theorem window?_append_window {c : Token} (p : Program) (a b : Int64) (op : Operator) :
    window? (c :: p ++ [.number a, .number b, .operator op]) = window? (c :: p) := by
  match p with
  | [] => cases c <;> rfl
  | [d] => cases c <;> cases d <;> rfl
  | d :: e :: p => cases c <;> cases d <;> cases e <;> rfl

/-- A window behind a program comes behind the windows of the program. -/
theorem windows_append_window (p : Program) (a b : Int64) (op : Operator) :
    windows (p ++ [.number a, .number b, .operator op]) = windows p ++ [(op, a, b)] := by
  induction p with
  | nil => rfl
  | cons c p ih =>
    rw [List.cons_append, windows_cons, windows_cons, ih, ← List.cons_append,
      window?_append_window, List.append_assoc]

/-- A known value behind a program adds no window. -/
theorem windows_concat_value (p : Program) (v : Int64) :
    windows (p ++ [.number v]) = windows p :=
  windows_concat (by simp [Readies])

/-- Two known values behind a program add no window. -/
theorem windows_append_values (p : Program) (a b : Int64) :
    windows (p ++ [.number a, .number b]) = windows p := by
  rw [List.append_cons, windows_concat_value, windows_concat_value]

/-! ## Replacing the windows -/

/-- A token is kept where no window begins. -/
theorem collapse_cons {t : Token} {p : Program} (h : window? (t :: p) = none)
    (ids : List TaskId) : collapse (t :: p) ids = t :: collapse p ids := by
  rw [collapse]
  rintro a b op behind id ids' - rfl rfl
  exact Option.some_ne_none _ h

/-- With a number for every window, a token that makes nothing ready is kept. -/
theorem collapse_concat {p : Program} {t : Token} {ids : List TaskId} (h : ¬ Readies p t)
    (hids : p.windows.length ≤ ids.length) : collapse (p ++ [t]) ids = collapse p ids ++ [t] := by
  induction p using windowwise generalizing ids with
  | nil => exact collapse_cons (window?_concat h) ids
  | window a b op p ih =>
    rw [windows_of_window] at hids
    match ids with
    | id :: ids =>
      have hrest := ih (fun hp => h (((hp.cons _).cons _).cons _)) (Nat.le_of_succ_le_succ hids)
      exact congrArg (Token.task id :: ·) hrest
  | token c p hfirst ih =>
    have hrest := ih (fun hp => h (hp.cons c)) (by simpa [windows_cons, hfirst] using hids)
    have hsame : window? (c :: (p ++ [t])) = none := (window?_concat h).trans hfirst
    rw [List.cons_append, collapse_cons hsame, collapse_cons hfirst, hrest, List.cons_append]

/-- With a number for every window, known values behind the program are kept. -/
theorem collapse_append_values {p : Program} {ids : List TaskId}
    (hids : p.windows.length ≤ ids.length) (a b : Int64) :
    collapse (p ++ [.number a, .number b]) ids = collapse p ids ++ [.number a, .number b] := by
  have hvalue {q : Program} (hq : q.windows.length ≤ ids.length) (v : Int64) :
      collapse (q ++ [.number v]) ids = collapse q ids ++ [.number v] :=
    collapse_concat (by simp [Readies]) hq
  rw [List.append_cons, hvalue (by rwa [windows_concat_value]), hvalue hids, ← List.append_cons]

/-- With a number for every window, a window behind the program is replaced by the last number. -/
theorem collapse_append_window {p : Program} {ids : List TaskId}
    (hids : p.windows.length = ids.length) (a b : Int64) (op : Operator) (id : TaskId) :
    collapse (p ++ [.number a, .number b, .operator op]) (ids ++ [id]) =
      collapse p ids ++ [.task id] := by
  induction p using windowwise generalizing ids with
  | nil =>
    obtain rfl := List.length_eq_zero_iff.mp hids.symm
    rfl
  | window c d o p ih =>
    rw [windows_of_window] at hids
    match ids with
    | id' :: ids => exact congrArg (Token.task id' :: ·) (ih (Nat.succ.inj hids))
  | token c p hfirst ih =>
    have hrest := ih (by simpa [windows_cons, hfirst] using hids)
    have hsame : window? (c :: (p ++ [.number a, .number b, .operator op])) = none :=
      (window?_append_window p a b op).trans hfirst
    rw [List.cons_append, collapse_cons hsame, collapse_cons hfirst, hrest, List.cons_append]

end Piecework.Program
