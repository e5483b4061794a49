import Piecework.Proofs.Reduction

/-!
# What a pass creates

A pass knows a sink by its answers alone. So a sink may write down every task that it takes
in, and the pass stays the same; what it has written down is what the pass created, also when
the pass fails later.
-/

namespace Piecework

variable {σ τ : Type} {sink : Sink σ} {costs : Costs} {expression : ExpressionId}

/-- The sink that also writes down each task it takes in, behind those written down before. -/
def Sink.recording (sink : Sink σ) : Sink (List Task × σ) where
  add d s :=
    let (id, s') := sink.add d s.2
    (id, (s.1 ++ [⟨d, id⟩], s'))

/-- The tasks that a pass over a program hands to a sink, in order. -/
def Program.created (sink : Sink σ) (costs : Costs) (expression : ExpressionId) (p : Program)
    (s : σ) : List Task :=
  (p.reduce sink.recording costs expression ([], s)).2.1

/-! ## Sinks that answer alike -/

/-- A sink does as another one does on the image of its state. -/
def Sink.MapsTo (sink' : Sink τ) (sink : Sink σ) (f : τ → σ) : Prop :=
  ∀ d t, sink.add d (f t) = ((sink'.add d t).1, f (sink'.add d t).2)

namespace Pass

/-- A pass with the state of its sink replaced by an image of it. -/
def mapSink (f : τ → σ) (s : Pass τ) : Pass σ := ⟨s.written, s.depth, s.spawned, f s.sink⟩

variable {sink' : Sink τ} {f : τ → σ}

/-- A token is read alike with sinks that answer alike. -/
theorem read_mapSink (hf : sink'.MapsTo sink f) (s : Pass τ) (t : Token) :
    (s.mapSink f).read sink costs expression t =
      (s.read sink' costs expression t).map (mapSink f) := by
  cases t with
  | number v => rfl
  | task id => rfl
  | operator op =>
    by_cases hdepth : s.depth < 2
    · simp [read, mapSink, hdepth, Except.map]
    · simp only [read, mapSink, hdepth, if_false]
      split
      · next b a rest hwritten =>
        by_cases hzero : op = .div ∧ b = 0
        · simp [hzero, Except.map]
        · simp only [hzero, if_false, hf _ s.sink]
          rfl
      · rfl

/-- A row of tokens is read alike with sinks that answer alike. -/
theorem readAll_mapSink (hf : sink'.MapsTo sink f) (costs : Costs) (expression : ExpressionId)
    (s : Pass τ) (ts : List Token) :
    readAll sink costs expression (s.mapSink f) ts =
      ((readAll sink' costs expression s ts).1.mapSink f,
        (readAll sink' costs expression s ts).2) := by
  induction ts generalizing s with
  | nil => rfl
  | cons t ts ih =>
    simp only [readAll, read_mapSink hf]
    cases s.read sink' costs expression t with
    | error e => rfl
    | ok s' => exact ih s'

end Pass

namespace Program

/-- Passes with sinks that answer alike end alike. -/
theorem reduce_mapSink {sink' : Sink τ} {f : τ → σ} (hf : sink'.MapsTo sink f) (costs : Costs)
    (expression : ExpressionId) (p : Program) (s : τ) :
    p.reduce sink costs expression (f s) =
      ((p.reduce sink' costs expression s).1, f (p.reduce sink' costs expression s).2) := by
  match p with
  | [] => rfl
  | [.number v] => rfl
  | [.task id] => rfl
  | [.operator op] => rfl
  | t :: t' :: p =>
    have hread := Pass.readAll_mapSink hf costs expression ⟨[], 0, [], s⟩ (t :: t' :: p)
    rw [reduce_eq_readAll sink _ _ (by simp), reduce_eq_readAll sink' _ _ (by simp)]
    simp only [Pass.mapSink] at hread
    rw [hread]
    generalize Pass.readAll sink' costs expression ⟨[], 0, [], s⟩ (t :: t' :: p) = r
    obtain ⟨last, _ | e⟩ := r <;> rfl

end Program

/-! ## The record -/

/-- Writing tasks down does not change what is done with them. -/
theorem Sink.recording_mapsTo (sink : Sink σ) : sink.recording.MapsTo sink Prod.snd :=
  fun _ _ => rfl

/-- A recording sink takes in what the sink takes in, and writes down just that. -/
theorem Sink.Takes.of_recording {ts : List Task} {s s' : List Task × σ}
    (h : sink.recording.Takes ts s s') : s'.1 = s.1 ++ ts ∧ sink.Takes ts s.2 s'.2 := by
  induction h with
  | nil s => exact ⟨(List.append_nil _).symm, .nil _⟩
  | @cons t ts s s' s'' hadd _ ih =>
    obtain ⟨hid, rfl⟩ := Prod.mk.inj hadd
    obtain ⟨hlog, htakes⟩ := ih
    have hadd' : sink.add t.toDraft s.2 = (t.id, (sink.add t.toDraft s.2).2) :=
      Prod.ext hid rfl
    refine ⟨?_, .cons hadd' htakes⟩
    rw [hlog, List.append_assoc]
    simp only [hid, List.singleton_append]

namespace Program

/-- A pass over any program ends in one of the ways listed, with the tasks that it handed out. -/
theorem reduces_created (sink : Sink σ) (costs : Costs) (expression : ExpressionId) (p : Program)
    (s : σ) :
    (∀ t ∈ p.created sink costs expression s, t.IsCutFrom costs expression) ∧
      Reduces sink p s (p.created sink costs expression s) (p.reduce sink costs expression s) := by
  obtain ⟨created, hcut, hreduces⟩ := exists_reduces sink.recording costs expression p ([], s)
  obtain ⟨hlog, _⟩ := hreduces.takes.of_recording
  have hcreated : p.created sink costs expression s = created := hlog
  have hsame := reduce_mapSink sink.recording_mapsTo costs expression p ([], s)
  rw [hcreated, show p.reduce sink costs expression s = _ from hsame]
  refine ⟨hcut, ?_⟩
  generalize p.reduce sink.recording costs expression ([], s) = r at hreduces ⊢
  cases hreduces with
  | pending hlength hpost hcuts hwindowless htakes =>
    exact .pending hlength hpost hcuts hwindowless htakes.of_recording.2
  | completed hp => exact .completed hp
  | divided hcuts htakes => exact .divided hcuts htakes.of_recording.2
  | malformed hbad htakes hcuts => exact .malformed hbad htakes.of_recording.2 hcuts

end Program

end Piecework
