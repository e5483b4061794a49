import Piecework.Proofs.Recording
import Piecework.Proofs.Windows

/-!
# A pass replaces every window

The stack on which a pass writes never hides the program that it reads: the known values that
stand last on it are those that were read last. So an operator finds two known values there
exactly when it ends a window of the program, and what has been written at any point is what was
read with all windows replaced. The placeholders written on the way make no new window, and a
second pass finds nothing to do.
-/

namespace Piecework

/-- The known values with which a row of tokens begins. -/
def Token.leadingValues : List Token → List Int64
  | .number v :: ts => v :: leadingValues ts
  | _ => []

/-- A row that begins with two known values continues behind them. -/
theorem Token.exists_of_leadingValues {ts : List Token} {a b : Int64} {vs : List Int64}
    (h : leadingValues ts = b :: a :: vs) : ∃ rest, ts = .number b :: .number a :: rest := by
  match ts with
  | .number b' :: .number a' :: rest =>
    obtain ⟨rfl, rfl, -⟩ : b' = b ∧ a' = a ∧ _ := by simpa [leadingValues] using h
    exact ⟨rest, rfl⟩
  | [] => contradiction
  | .task _ :: _ => contradiction
  | .operator _ :: _ => contradiction
  | [.number _] => simp [leadingValues] at h
  | .number _ :: .task _ :: _ => simp [leadingValues] at h
  | .number _ :: .operator _ :: _ => simp [leadingValues] at h

namespace Pass

variable {σ : Type} {sink : Sink σ} {costs : Costs} {expression : ExpressionId}

/-- A pass with a record has read a program: it knows how many operands that leaves, the known
values written last are those read last, the windows are replaced in what it has written, and
their operations are what it has recorded. -/
structure Follows (costs : Costs) (expression : ExpressionId) (read : Program)
    (s : Pass (List Task × σ)) : Prop where
  depth_eq : Program.operands? 0 read = some s.depth
  values_eq : Token.leadingValues s.written = Token.leadingValues read.reverse
  written_eq : s.written.reverse = read.collapse (s.sink.1.map (·.id))
  drafts_eq : s.sink.1.map (·.toDraft) = read.drafts costs expression

variable {read : Program} {s s' : Pass (List Task × σ)}

/-- There is a recorded task for every window. -/
theorem Follows.length_windows_eq (h : s.Follows costs expression read) :
    read.windows.length = (s.sink.1.map (·.id)).length := by
  have hlength := congrArg List.length h.drafts_eq
  simpa [Program.drafts] using hlength.symm

/-- Two known values that were written last were read last. -/
theorem Follows.exists_of_written (h : s.Follows costs expression read) {a b : Int64}
    {rest : List Token} (hwritten : s.written = .number b :: .number a :: rest) :
    ∃ before : Program, read = before ++ [.number a, .number b] := by
  have hvalues := h.values_eq
  rw [hwritten] at hvalues
  obtain ⟨behind, hreverse⟩ := Token.exists_of_leadingValues hvalues.symm
  refine ⟨behind.reverse, ?_⟩
  rw [← List.reverse_reverse read, hreverse]
  simp

/-- An operator that must wait ends no window. -/
theorem Follows.not_readies (h : s.Follows costs expression read)
    (hwaits : ∀ a b rest, s.written ≠ .number b :: .number a :: rest) (op : Operator) :
    ¬ read.Readies (.operator op) := by
  rintro ⟨a, b, _, -, before, rfl⟩
  have hvalues := h.values_eq
  rw [List.reverse_append] at hvalues
  obtain ⟨rest, hwritten⟩ := Token.exists_of_leadingValues hvalues
  exact hwaits a b rest hwritten

/-- A copied token keeps to the program when it ends no window. -/
theorem Follows.copy (h : s.Follows costs expression read) {t : Token} (ht : ¬ read.Readies t)
    {depth : Nat} (hdepth : Program.operands? s.depth [t] = some depth) :
    Follows costs expression (read ++ [t]) { s with written := t :: s.written, depth := depth } where
  depth_eq := by
    rw [Program.operands?_append, h.depth_eq]
    exact hdepth
  values_eq := by
    rw [List.reverse_concat]
    cases t with
    | number v => exact congrArg (v :: ·) h.values_eq
    | operator op => rfl
    | task id => rfl
  written_eq := by
    have hcollapse := Program.collapse_concat ht h.length_windows_eq.le
    rw [List.reverse_cons, h.written_eq, hcollapse]
  drafts_eq := by
    rw [Program.drafts, Program.windows_concat ht]
    exact h.drafts_eq

/-- A cut keeps to the program: its three tokens are a window, the last one so far. -/
theorem Follows.cut (h : s.Follows costs expression read) {t : Task} {rest : List Token} {sink' : σ}
    {depth : Nat} (hwritten : s.written = .number t.right :: .number t.left :: rest)
    (hcut : t.IsCutFrom costs expression)
    (hdepth : Program.operands? s.depth [.operator t.operator] = some depth) :
    Follows costs expression (read ++ [.operator t.operator])
      ⟨.task t.id :: rest, depth, t.id :: s.spawned, (s.sink.1 ++ [t], sink')⟩ := by
  obtain ⟨before, rfl⟩ := h.exists_of_written hwritten
  have hwindow : before ++ [.number t.left, .number t.right] ++ [.operator t.operator] =
      before ++ [.number t.left, .number t.right, .operator t.operator] := by simp
  have hids := h.length_windows_eq
  rw [Program.windows_append_values] at hids
  -- The two values were copied, and under them is what was read before.
  have hbelow : rest.reverse = Program.collapse before (s.sink.1.map (·.id)) := by
    have hreverse := h.written_eq
    rw [hwritten, Program.collapse_append_values hids.le] at hreverse
    simpa using hreverse
  constructor
  · rw [Program.operands?_append, h.depth_eq]
    exact hdepth
  · rw [List.reverse_concat]
    rfl
  · rw [hwindow, List.map_append, List.reverse_cons, hbelow]
    exact (Program.collapse_append_window hids t.left t.right t.operator t.id).symm
  · have hdraft : t.toDraft =
        ⟨expression, t.operator, t.left, t.right, costs.cost t.operator⟩ := by
      rw [← hcut.expression_eq, ← hcut.cost_eq]
    have hdrafts := h.drafts_eq
    rw [Program.drafts, Program.windows_append_values] at hdrafts
    rw [hwindow, Program.drafts, Program.windows_append_window, List.map_append, List.map_append,
      hdrafts, List.map_singleton, List.map_singleton, hdraft]

/-- Reading a token keeps to the program. -/
theorem Follows.reads (h : s.Follows costs expression read) {t : Token}
    (hreads : Reads sink.recording costs expression s t s') :
    s'.Follows costs expression (read ++ [t]) := by
  cases hreads with
  | operand hoperand =>
    refine h.copy ?_ ?_
    · rintro ⟨a, b, op, ht, -⟩
      exact hoperand op ht
    · cases t with
      | operator op => exact absurd rfl (hoperand op)
      | number v => rfl
      | task id => rfl
  | waiting htwo hwaits =>
    refine h.copy (h.not_readies hwaits _) ?_
    rw [Program.operands?, if_neg (Nat.not_lt.mpr htwo), Program.operands?]
  | @cut t rest sink' htwo hwritten hcut hadd =>
    obtain ⟨hid, rfl⟩ := Prod.mk.inj hadd
    have hrecord : (⟨t.toDraft, (sink.add t.toDraft s.sink.2).1⟩ : Task) = t := by rw [hid]
    rw [hrecord]
    refine h.cut hwritten hcut ?_
    rw [Program.operands?, if_neg (Nat.not_lt.mpr htwo), Program.operands?]

/-- Reading goes on until it stops, and keeps to what it has read. -/
theorem exists_follows_readAll (sink : Sink σ) (h : s.Follows costs expression read)
    (ts : List Token) :
    ∃ done rest, ts = done ++ rest ∧
      (readAll sink.recording costs expression s ts).1.Follows costs expression (read ++ done) ∧
      Stops (readAll sink.recording costs expression s ts).1 rest
        (readAll sink.recording costs expression s ts).2 := by
  induction ts generalizing s read with
  | nil =>
    refine ⟨[], [], rfl, by rwa [List.append_nil], ?_⟩
    simp only [readAll]
    split
    · next hdepth => exact .complete hdepth
    · next hdepth => exact .surplus hdepth
  | cons t ts ih =>
    simp only [readAll]
    split
    · next e hread =>
      exact ⟨[], t :: ts, rfl, by rwa [List.append_nil], .refused (refuses_of_read hread)⟩
    · next s' hread =>
      obtain ⟨done, rest, rfl, hfollows, hstops⟩ := ih (h.reads (reads_of_read hread))
      exact ⟨t :: done, rest, rfl, by simpa using hfollows, hstops⟩

end Pass

namespace Program

variable {σ : Type}

/-- A pass over a program of several tokens keeps to the program up to where it stops, and with all
windows up to there it hands over its tasks. -/
theorem exists_follows (sink : Sink σ) (costs : Costs) (expression : ExpressionId) {p : Program}
    (hlength : 2 ≤ p.length) (s : σ) :
    ∃ (done rest : Program) (last : Pass (List Task × σ)) (e : Option ProgramError),
      p = done ++ rest ∧ last.Follows costs expression done ∧ last.Stops rest e ∧
      last.sink.1 = p.created sink costs expression s ∧
      (p.reduce sink costs expression s).1 =
        match e with
        | none => ⟨last.written.reverse, .pending, last.spawned.reverse⟩
        | some e => ⟨p, .failed e, last.spawned.reverse⟩ := by
  have hstart : Pass.Follows costs expression [] (⟨[], 0, [], [], s⟩ : Pass (List Task × σ)) :=
    ⟨rfl, rfl, rfl, rfl⟩
  obtain ⟨done, rest, hp, hfollows, hstops⟩ := Pass.exists_follows_readAll sink hstart p
  refine ⟨done, rest, _, _, hp, hfollows, hstops, ?_⟩
  have hsame := reduce_mapSink sink.recording_mapsTo costs expression p ([], s)
  rw [created, show p.reduce sink costs expression s = _ from hsame, reduce_eq_readAll _ _ _ hlength]
  generalize Pass.readAll sink.recording costs expression ⟨[], 0, [], [], s⟩ p = r
  obtain ⟨last, _ | e⟩ := r <;> exact ⟨rfl, rfl⟩

/-- Nothing is cut out of a program without windows. -/
theorem Cuts.of_isWindowless {ts : List Task} {p q : Program} (h : Cuts ts p q)
    (hp : p.IsWindowless) : ts = [] ∧ q = p := by
  cases h with
  | nil => exact ⟨rfl, rfl⟩
  | @cons t _ _ _ _ hcut _ =>
    obtain ⟨before, behind⟩ := hcut
    exact absurd ⟨before, behind, by simp⟩ (hp t.left t.right t.operator)

/-- A pass over a postfix program of several tokens without windows leaves everything as it is. -/
theorem reduce_of_isWindowless (sink : Sink σ) (costs : Costs) (expression : ExpressionId)
    {p : Program} (hpost : p.IsPostfix) (hwindowless : p.IsWindowless) (hlength : 2 ≤ p.length)
    (s : σ) :
    p.reduce sink costs expression s = (⟨p, .pending, []⟩, s) ∧
      p.created sink costs expression s = [] := by
  obtain ⟨-, hreduces⟩ := reduces_created sink costs expression p s
  generalize p.created sink costs expression s = created at hreduces ⊢
  generalize p.reduce sink costs expression s = r at hreduces ⊢
  cases hreduces with
  | pending _ _ hcuts _ htakes =>
    obtain ⟨rfl, rfl⟩ := hcuts.of_isWindowless hwindowless
    cases htakes
    exact ⟨rfl, rfl⟩
  | completed hp => simp [hp] at hlength
  | @divided _ before behind a _ hcuts _ =>
    obtain ⟨-, rfl⟩ := hcuts.of_isWindowless hwindowless
    exact absurd ⟨before, behind, by simp⟩ (hwindowless a 0 .div)
  | malformed hbad _ _ =>
    rcases hbad with hbad | ⟨id, rfl⟩
    · exact absurd hpost hbad
    · simp at hlength

/-- What has been cut out when a pass leaves work pending. -/
theorem Reduces.of_pending {sink : Sink σ} {p : Program} {s : σ} {created : List Task}
    {r : Reduction × σ} (h : Reduces sink p s created r) (hpending : r.1.outcome = .pending) :
    2 ≤ p.length ∧ p.IsPostfix ∧ Cuts created p r.1.program ∧ r.1.program.IsWindowless := by
  cases h with
  | pending hlength hpost hcuts hwindowless _ => exact ⟨hlength, hpost, hcuts, hwindowless⟩
  | completed _ | divided _ _ | malformed _ _ _ => contradiction

/-- A pass that leaves work pending has replaced every window of the program by the placeholder of
one task, with the tasks in the order of the windows, and kept every other token. Nothing is left
to replace, so one more pass changes nothing and creates nothing, whatever its sink. -/
theorem pending_eq_collapse (sink : Sink σ) (costs : Costs) (expression : ExpressionId)
    (p : Program) (s : σ) (hpending : (p.reduce sink costs expression s).1.outcome = .pending) :
    let r := (p.reduce sink costs expression s).1
    let created := p.created sink costs expression s
    r.program = p.collapse r.spawned ∧
      created.map (·.toDraft) = p.drafts costs expression ∧
      r.spawned = created.map (·.id) ∧
      p.length = r.program.length + 2 * created.length ∧
      r.program.IsWindowless ∧
      ∀ {τ : Type} (sink' : Sink τ) (costs' : Costs) (expression' : ExpressionId) (s' : τ),
        2 ≤ r.program.length →
          r.program.reduce sink' costs' expression' s' = (⟨r.program, .pending, []⟩, s') ∧
            r.program.created sink' costs' expression' s' = [] := by
  intro r created
  obtain ⟨-, hreduces⟩ := reduces_created sink costs expression p s
  have hspawned : r.spawned = created.map (·.id) := hreduces.spawned_eq
  obtain ⟨hlength, hpost, hcuts, hwindowless⟩ := hreduces.of_pending hpending
  obtain ⟨done, rest, last, e, hp, hfollows, hstops, hcreated, hr⟩ :=
    exists_follows sink costs expression hlength s
  rw [hr] at hpending
  cases hstops with
  | surplus _ | refused _ => contradiction
  | complete hdepth =>
    obtain rfl : done = p := (hp.trans (List.append_nil done)).symm
    have hprogram : r.program = last.written.reverse := congrArg Reduction.program hr
    refine ⟨?_, ?_, hspawned, hcuts.length_eq, hwindowless, fun sink' costs' expression' s' htwo => ?_⟩
    · rw [hprogram, hspawned, hfollows.written_eq, hcreated]
    · have hdrafts := hfollows.drafts_eq
      rwa [hcreated] at hdrafts
    · have hkept : r.program.IsPostfix := (hcuts.operands?_eq 0).symm.trans hpost
      exact reduce_of_isWindowless sink' costs' expression' hkept hwindowless htwo s'

/-- The two windows of this program are replaced and its own placeholder stays. The tasks are listed
with their costs, and one more pass changes nothing. -/
theorem pending_eq_collapse_around_placeholder :
    let sink : Sink Nat := ⟨fun _ n => (n + 1, n + 1)⟩
    let p : Program := [.number 1, .number 2, .operator .add, .task 9, .number 3, .number 4,
      .operator .mul, .operator .sub, .operator .div]
    let q : Program := [.task 1, .task 9, .task 2, .operator .sub, .operator .div]
    let r := (p.reduce sink {} 7 0).1
    r.outcome = .pending ∧ r.program = q ∧
      (p.created sink {} 7 0).map (·.toDraft) = [⟨7, .add, 1, 2, 1000⟩, ⟨7, .mul, 3, 4, 2000⟩] ∧
      q.reduce sink {} 7 2 = (⟨q, .pending, []⟩, 2) := by
  intro sink p q r
  have hpending : r.outcome = .pending := by decide
  obtain ⟨hprogram, hdrafts, _, _, _, hagain⟩ := pending_eq_collapse sink {} 7 p 0 hpending
  have hcollapse : p.collapse r.spawned = q := by decide
  have hlisted : p.drafts {} 7 = [⟨7, .add, 1, 2, 1000⟩, ⟨7, .mul, 3, 4, 2000⟩] := by decide
  have hq : r.program = q := hprogram.trans hcollapse
  rw [show (p.reduce sink {} 7 0).1.program = q from hq] at hagain
  exact ⟨hpending, hq, hdrafts.trans hlisted, (hagain sink {} 7 2 (by decide)).1⟩

end Program

end Piecework
