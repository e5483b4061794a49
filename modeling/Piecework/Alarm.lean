import Piecework.Queue

/-!
# Alarms

An alarm calls somebody at a moment. Among alarms the one due first rings
first, and of those due together the one set first. Alarms whose moment has
passed still ring, in the same order.
-/

namespace Piecework

/-- A call that is due at a moment, with the moment at which it was set. -/
structure Alarm (α : Type) where
  due : Time
  since : Time
  call : α
  deriving DecidableEq, Repr

namespace Alarm

/-- Whether an alarm rings strictly before another. -/
def isBefore {α β : Type} (a : Alarm α) (b : Alarm β) : Bool :=
  decide (a.due < b.due) || (decide (a.due = b.due) && decide (a.since < b.since))

/-- The alarm of a row that rings first; of equal ones, the first in the row. -/
def first? {α : Type} : List (Alarm α) → Option (Alarm α)
  | [] => none
  | a :: as =>
    match first? as with
    | none => some a
    | some b => if b.isBefore a then some b else some a

/-- An alarm that rings before another is due no later. -/
theorem due_le_of_isBefore {α β : Type} {a : Alarm α} {b : Alarm β} (h : a.isBefore b = true) :
    a.due ≤ b.due := by
  simp only [isBefore, Bool.or_eq_true, Bool.and_eq_true, decide_eq_true_eq] at h
  rcases h with hearlier | ⟨htogether, _⟩
  · exact Nat.le_of_lt hearlier
  · exact Nat.le_of_eq htogether

/-- An alarm that does not ring before another is due no earlier. -/
theorem due_le_of_not_isBefore {α β : Type} {a : Alarm α} {b : Alarm β}
    (h : ¬ a.isBefore b = true) : b.due ≤ a.due := by
  simp only [isBefore, Bool.or_eq_true, Bool.and_eq_true, decide_eq_true_eq, not_or] at h
  exact Nat.le_of_not_lt h.1

/-- Only a row without alarms has no first one. -/
theorem first?_eq_none_iff {α : Type} {as : List (Alarm α)} : first? as = none ↔ as = [] := by
  cases as with
  | nil => exact iff_of_true rfl rfl
  | cons a as =>
    rw [first?]
    split
    · simp
    · split <;> simp

/-- The first alarm of a row is one of them, and none of them is due earlier. -/
theorem first?_spec {α : Type} {as : List (Alarm α)} {a : Alarm α} (h : first? as = some a) :
    a ∈ as ∧ ∀ b ∈ as, a.due ≤ b.due := by
  induction as generalizing a with
  | nil => contradiction
  | cons c as ih =>
    rw [first?] at h
    cases hrest : first? as with
    | none =>
      obtain rfl := first?_eq_none_iff.mp hrest
      rw [hrest] at h
      obtain rfl := Option.some.inj h
      simp
    | some b =>
      obtain ⟨hmem, hleast⟩ := ih hrest
      rw [hrest] at h
      dsimp only at h
      split at h
      · next hbefore =>
        obtain rfl := Option.some.inj h
        have hle := due_le_of_isBefore hbefore
        exact ⟨List.mem_cons_of_mem c hmem, List.forall_mem_cons.mpr ⟨hle, hleast⟩⟩
      · next hafter =>
        obtain rfl := Option.some.inj h
        have hle := due_le_of_not_isBefore hafter
        exact ⟨List.mem_cons_self, List.forall_mem_cons.mpr
          ⟨Nat.le_refl _, fun d hd => Nat.le_trans hle (hleast d hd)⟩⟩

end Alarm

end Piecework
