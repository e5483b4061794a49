import Piecework.Proofs.Cut
import Piecework.Reduction

/-!
# What a pass does

A pass cuts out tasks from left to right and copies everything else, and it stops
at the end of the program or in front of a token that it refuses. The sink is
arbitrary: it is told every task that is cut out, in order, also by a pass that
fails later.
-/

namespace Piecework

/-- A sink takes in a row of tasks and gives each the number that it is listed with. -/
inductive Sink.Takes {σ : Type} (sink : Sink σ) : List Task → σ → σ → Prop where
  | nil (s : σ) : Takes sink [] s s
  | cons {t : Task} {ts : List Task} {s s' s'' : σ} :
      sink.add t.toDraft s = (t.id, s') → Takes sink ts s' s'' → Takes sink (t :: ts) s s''

/-- A sink takes in two rows one after the other. -/
theorem Sink.Takes.trans {σ : Type} {sink : Sink σ} {ts us : List Task} {s s' s'' : σ}
    (h : sink.Takes ts s s') (h' : sink.Takes us s' s'') : sink.Takes (ts ++ us) s s'' := by
  induction h with
  | nil s => exact h'
  | cons hadd _ ih => exact .cons hadd (ih h')

/-- A task as a pass over an expression creates it; no task divides by a known zero. -/
structure Task.IsCutFrom (costs : Costs) (expression : ExpressionId) (t : Task) : Prop where
  expression_eq : t.expression = expression
  cost_eq : t.cost = costs.cost t.operator
  right_ne_zero : t.operator = .div → t.right ≠ 0

namespace Pass

variable {σ : Type} {sink : Sink σ} {costs : Costs} {expression : ExpressionId}

/-- The pass knows how many operands it has written, and has left no window behind. -/
structure IsSound (s : Pass σ) : Prop where
  depth_eq : Program.operands? 0 s.written.reverse = some s.depth
  windowless : Program.IsWindowless s.written.reverse

/-- Before it reads anything a pass is sound. -/
theorem isSound_start (sink' : σ) : IsSound (⟨[], 0, [], sink'⟩ : Pass σ) where
  depth_eq := rfl
  windowless := fun _ _ _ h => List.cons_ne_nil _ _ (List.infix_nil.mp h)

/-- What reading a token does: copy an operand, copy an operator that must wait, or cut a task. -/
inductive Reads (sink : Sink σ) (costs : Costs) (expression : ExpressionId) (s : Pass σ) :
    Token → Pass σ → Prop where
  | operand {t : Token} : (∀ op, t ≠ .operator op) →
      Reads sink costs expression s t
        { s with written := t :: s.written, depth := s.depth + 1 }
  | waiting {op : Operator} : 2 ≤ s.depth →
      (∀ a b rest, s.written ≠ .number b :: .number a :: rest) →
      Reads sink costs expression s (.operator op)
        { s with written := .operator op :: s.written, depth := s.depth - 1 }
  | cut {t : Task} {rest : List Token} {sink' : σ} : 2 ≤ s.depth →
      s.written = .number t.right :: .number t.left :: rest → t.IsCutFrom costs expression →
      sink.add t.toDraft s.sink = (t.id, sink') →
      Reads sink costs expression s (.operator t.operator)
        ⟨.task t.id :: rest, s.depth - 1, t.id :: s.spawned, sink'⟩

/-- Why a token is refused: operands are missing, or a known value is to be divided by zero. -/
inductive Refuses (s : Pass σ) : Token → ProgramError → Prop where
  | missing {op : Operator} : s.depth < 2 → Refuses s (.operator op) .malformed
  | division {a : Int64} {rest : List Token} : s.written = .number 0 :: .number a :: rest →
      Refuses s (.operator .div) .divisionByZero

/-- A token that is read is copied or completes a cut. -/
theorem reads_of_read {s s' : Pass σ} {t : Token}
    (h : s.read sink costs expression t = .ok s') : Reads sink costs expression s t s' := by
  cases t with
  | number v =>
    obtain rfl := Except.ok.inj h
    exact .operand (by simp)
  | task id =>
    obtain rfl := Except.ok.inj h
    exact .operand (by simp)
  | operator op =>
    simp only [read] at h
    split at h
    · contradiction
    · next hdepth =>
      have htwo : 2 ≤ s.depth := Nat.not_lt.mp hdepth
      split at h
      · next b a rest hwritten =>
        split at h
        · contradiction
        · next hzero =>
          obtain rfl := Except.ok.inj h
          let t : Task := ⟨⟨expression, op, a, b, costs.cost op⟩,
            (sink.add ⟨expression, op, a, b, costs.cost op⟩ s.sink).1⟩
          exact .cut (t := t) htwo hwritten ⟨rfl, rfl, fun hop hb => hzero ⟨hop, hb⟩⟩ rfl
      · next hne =>
        obtain rfl := Except.ok.inj h
        exact .waiting htwo fun a b rest hwritten => hne b a rest hwritten

/-- A token that is not read is an operator without operands or a division by zero. -/
theorem refuses_of_read {s : Pass σ} {t : Token} {e : ProgramError}
    (h : s.read sink costs expression t = .error e) : Refuses s t e := by
  cases t with
  | number v => contradiction
  | task id => contradiction
  | operator op =>
    simp only [read] at h
    split at h
    · next hdepth =>
      obtain rfl := Except.error.inj h
      exact .missing hdepth
    · split at h
      · next b a rest hwritten =>
        split at h
        · next hzero =>
          obtain rfl := Except.error.inj h
          obtain ⟨rfl, rfl⟩ := hzero
          exact .division hwritten
        · contradiction
      · contradiction

/-- The operands after one more token. -/
theorem operands?_reverse_cons (t : Token) (written : List Token) :
    Program.operands? 0 (t :: written).reverse =
      (Program.operands? 0 written.reverse).bind (Program.operands? · [t]) := by
  rw [List.reverse_cons, Program.operands?_append]

/-- Reading keeps a pass sound. -/
theorem IsSound.reads {s s' : Pass σ} {t : Token} (hs : s.IsSound)
    (h : Reads sink costs expression s t s') : s'.IsSound := by
  cases h with
  | operand hoperand =>
    constructor
    · rw [operands?_reverse_cons, hs.depth_eq]
      cases t with
      | operator op => exact absurd rfl (hoperand op)
      | number v => rfl
      | task id => rfl
    · exact Program.isWindowless_reverse_cons hs.windowless fun a b op rest ht =>
        absurd ht (hoperand op)
  | waiting htwo hne =>
    constructor
    · rw [operands?_reverse_cons, hs.depth_eq]
      rw [Option.bind_some, Program.operands?, if_neg (Nat.not_lt.mpr htwo), Program.operands?]
    · exact Program.isWindowless_reverse_cons hs.windowless fun a b op rest _ => hne a b rest
  | @cut t rest sink' htwo hwritten hcut hadd =>
    have hdepth := hs.depth_eq
    have hwindowless := hs.windowless
    rw [hwritten] at hdepth hwindowless
    simp only [operands?_reverse_cons] at hdepth
    constructor
    · rw [operands?_reverse_cons]
      cases hrest : Program.operands? 0 rest.reverse with
      | none => simp [hrest] at hdepth
      | some n =>
        simp only [hrest, Option.bind_some, Program.operands?, Option.some.injEq] at hdepth ⊢
        omega
    · refine Program.isWindowless_reverse_cons (hwindowless.of_infix ?_) (by simp)
      rw [List.reverse_infix]
      exact ⟨[.number t.right, .number t.left], [], by simp⟩

/-- Reading a token cuts at most one task out of the program as it stands. -/
theorem Reads.cuts {s s' : Pass σ} {t : Token} (h : Reads sink costs expression s t s')
    (ts : List Token) :
    ∃ created, (∀ c ∈ created, c.IsCutFrom costs expression) ∧
      Program.Cuts created (s.written.reverse ++ t :: ts) (s'.written.reverse ++ ts) ∧
      sink.Takes created s.sink s'.sink ∧
      s'.spawned = (created.map (·.id)).reverse ++ s.spawned := by
  cases h with
  | operand _ => exact ⟨[], by simp, by simpa using .nil _, .nil _, rfl⟩
  | waiting _ _ => exact ⟨[], by simp, by simpa using .nil _, .nil _, rfl⟩
  | @cut t rest sink' _ hwritten hcut hadd =>
    refine ⟨[t], by simpa using hcut, ?_, .cons hadd (.nil _), rfl⟩
    have hprogram : s.written.reverse ++ .operator t.operator :: ts =
        rest.reverse ++ .number t.left :: .number t.right :: .operator t.operator :: ts := by
      simp [hwritten]
    rw [hprogram, List.reverse_cons, List.append_assoc]
    exact .cons (.at _ _) (.nil _)

/-- A row of tokens has been read up to where the pass stops, with the tasks cut out on the way. -/
structure ReadsAll (sink : Sink σ) (costs : Costs) (expression : ExpressionId) (s : Pass σ)
    (ts : List Token) (created : List Task) (rest : List Token) (last : Pass σ) : Prop where
  sound : last.IsSound
  created_cut : ∀ c ∈ created, c.IsCutFrom costs expression
  cuts : Program.Cuts created (s.written.reverse ++ ts) (last.written.reverse ++ rest)
  takes : sink.Takes created s.sink last.sink
  spawned_eq : last.spawned = (created.map (·.id)).reverse ++ s.spawned

/-- A pass stops at the end of the tokens, or in front of one that it refuses. -/
inductive Stops (s : Pass σ) : List Token → Option ProgramError → Prop where
  | complete : s.depth = 1 → Stops s [] none
  | surplus : s.depth ≠ 1 → Stops s [] (some .malformed)
  | refused {t : Token} {ts : List Token} {e : ProgramError} :
      Refuses s t e → Stops s (t :: ts) (some e)

/-- Reading goes token by token until the pass stops. -/
theorem readAll_readsAll (sink : Sink σ) (costs : Costs) (expression : ExpressionId)
    {s : Pass σ} (hs : s.IsSound) (ts : List Token) :
    ∃ created rest,
      ReadsAll sink costs expression s ts created rest (s.readAll sink costs expression ts).1 ∧
      Stops (s.readAll sink costs expression ts).1 rest (s.readAll sink costs expression ts).2 := by
  induction ts generalizing s with
  | nil =>
    refine ⟨[], [], ⟨hs, by simp, .nil _, .nil _, rfl⟩, ?_⟩
    simp only [readAll]
    split
    · next hdepth => exact .complete hdepth
    · next hdepth => exact .surplus hdepth
  | cons t ts ih =>
    simp only [readAll]
    split
    · next e hread =>
      exact ⟨[], t :: ts, ⟨hs, by simp, .nil _, .nil _, rfl⟩, .refused (refuses_of_read hread)⟩
    · next s' hread =>
      have hreads := reads_of_read hread
      obtain ⟨first, hfirst, hcut, htake, hspawned⟩ := hreads.cuts ts
      obtain ⟨created, rest, hall, hstops⟩ := ih (hs.reads hreads)
      refine ⟨first ++ created, rest, ⟨hall.sound, ?_, hcut.trans hall.cuts,
        htake.trans hall.takes, ?_⟩, hstops⟩
      · intro c hc
        exact (List.mem_append.mp hc).elim (hfirst c) (hall.created_cut c)
      · simp [hall.spawned_eq, hspawned]

/-- The operands of the whole program are those written and those of the rest. -/
theorem ReadsAll.operands?_eq {s last : Pass σ} {ts rest : List Token} {created : List Task}
    (h : ReadsAll sink costs expression s ts created rest last) :
    Program.operands? 0 (s.written.reverse ++ ts) = Program.operands? last.depth rest := by
  rw [h.cuts.operands?_eq, Program.operands?_append, h.sound.depth_eq, Option.bind_some]

end Pass

end Piecework
