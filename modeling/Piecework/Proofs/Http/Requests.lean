import Piecework.Proofs.Acceptance
import Piecework.Proofs.Deadlines
import Piecework.Proofs.Http.Routes
import Piecework.Proofs.Offers

/-!
# What requests do to a broker

A request brings about at most one event of a run, and its answer tells the reply to the
event. So what requests do follows from what events do: a task is taken up by polls alone,
and a request that is rejected leaves the broker as it was, up to the claims that a poll has
found lapsed. A poll that asks for the head of the answer alone takes its task up as well,
and nobody is told which.
-/

namespace Piecework

namespace Http

variable {r : Request}

/-! ## The event of a request -/

/-- The request names a method and a path. -/
def Request.Asks (r : Request) (method path : String) : Prop :=
  r.method = method ∧ r.target.path = path.toList

instance (r : Request) (method path : String) : Decidable (r.Asks method path) :=
  inferInstanceAs (Decidable (_ ∧ _))

/-- The request asks for a task, with the whole answer or its head alone. -/
def Request.IsPoll (r : Request) : Prop :=
  r.Asks "GET" "/internal/task" ∨ r.Asks "HEAD" "/internal/task"

instance (r : Request) : Decidable r.IsPoll := inferInstanceAs (Decidable (_ ∨ _))

/-- The request carries a value: its body is declared as JSON, within the limit, and read as the
value. -/
structure Request.Carries {α : Type} (decode : Node → Except DecodeError α) (r : Request)
    (v : α) : Prop where
  isJson : r.contentType.any isJsonType = true
  short : r.body.utf8ByteSize ≤ bodyLimit
  read : Json.readLeading decode r.body = .ok v

/-- The event that a request brings about, if any. A request with another path or method brings
about none, nor does one whose body cannot be read. -/
def Request.event? (r : Request) : Option Event :=
  match resource? r.target, Verb.ofMethod r.method with
  | some .calculate, .post =>
    match r.read Calculation.decode with
    | .ok c => some (.submit c.text c.owner)
    | .error _ => none
  | some .task, .post =>
    match r.read Report.decode with
    | .ok report => some (.report report)
    | .error _ => none
  | some .task, .get _ => some .poll
  | _, _ => none

/-- The whole answers that tell a client the reply to its event. -/
inductive Tells : Reply → Response → Prop where
  | submitted (id : ExpressionId) :
    Tells (.submitted id) ⟨201, .json (.record [("id", .natural id)])⟩
  | rejected (e : InfixError) :
    Tells (.rejected e) (.error 400 ("Invalid expression: " ++ e.message))
  | offered (t : Task) : Tells (.offered (some t)) ⟨200, .json t.envelope⟩
  | idle : Tells (.offered none) (.error 404 "No task available")
  | accepted : Tells .accepted ⟨200, .json (.record [])⟩
  | refused (e : LookupError) : Tells (.refused e) (.error 404 e.message)

/-- What a request is sent of a whole answer. -/
def Request.portion (r : Request) (a : Response) : Response :=
  if r.method = "HEAD" then a.head else a

/-- A request is sent the status of the answer in any case. -/
@[simp] theorem Request.portion_status (r : Request) (a : Response) :
    (r.portion a).status = a.status := by
  unfold portion
  split <;> rfl

/-- The verbs that ask for something, with all of it or with its head alone. -/
theorem verb_eq_get_iff {method : String} {headOnly : Bool} :
    Verb.ofMethod method = .get headOnly ↔ method = if headOnly then "HEAD" else "GET" := by
  unfold Verb.ofMethod
  cases headOnly <;> grind

/-- Reading the body of a request gives the value that the request carries, if it carries one. -/
theorem Request.read_eq_ok_iff {α : Type} {decode : Node → Except DecodeError α} {v : α} :
    r.read decode = .ok v ↔ r.Carries decode v := by
  unfold Request.read
  constructor
  · intro h
    split at h
    · next hjson =>
      split at h
      · contradiction
      · next hshort =>
        split at h
        · next v' hread =>
          obtain rfl := Except.ok.inj h
          exact ⟨hjson, Nat.le_of_not_lt hshort, hread⟩
        · contradiction
        · contradiction
    · contradiction
  · rintro ⟨hjson, hshort, hread⟩
    rw [if_pos hjson, if_neg (Nat.not_lt_of_le hshort), hread]

/-- No request makes time pass. -/
theorem Request.event?_ne_wait (ms : Nat) : r.event? ≠ some (.wait ms) := by
  unfold event?
  split
  · split <;> simp
  · split <;> simp
  · simp
  · simp

/-- A poll brings about a poll of the broker, and nothing else does. -/
theorem Request.event?_eq_poll_iff : r.event? = some .poll ↔ r.IsPoll := by
  have hpoll : r.IsPoll ↔
      resource? r.target = some .task ∧ ∃ headOnly, Verb.ofMethod r.method = .get headOnly := by
    simp only [IsPoll, Asks, resource?_eq_task_iff, verb_eq_get_iff, Bool.exists_bool]
    tauto
  rw [hpoll]
  constructor
  · intro h
    unfold event? at h
    split at h
    · split at h <;> simp at h
    · split at h <;> simp at h
    · next headOnly hres hverb => exact ⟨hres, headOnly, hverb⟩
    · contradiction
  · rintro ⟨hres, headOnly, hverb⟩
    simp [event?, hres, hverb]

/-- A request that carries a report brings the report. -/
theorem Request.event?_of_report {report : Report} (hasks : r.Asks "POST" "/internal/task")
    (h : r.Carries Report.decode report) : r.event? = some (.report report) := by
  have hres := resource?_eq_task_iff.mpr hasks.2
  simp [event?, hres, hasks.1, Verb.ofMethod, read_eq_ok_iff.mpr h]

/-- A request that carries an expression brings the expression. -/
theorem Request.event?_of_calculation {c : Calculation}
    (hasks : r.Asks "POST" "/api/v1/calculate") (h : r.Carries Calculation.decode c) :
    r.event? = some (.submit c.text c.owner) := by
  have hres := resource?_eq_calculate_iff.mpr hasks.2
  simp [event?, hres, hasks.1, Verb.ofMethod, read_eq_ok_iff.mpr h]

/-! ## Answers -/

variable {m : Moment}

/-- Submitting a request's expression is answered by what comes of it. -/
theorem exists_tells_calculate {c : Calculation} (h : r.read Calculation.decode = .ok c) :
    ∃ a, Tells (m.step (.submit c.text c.owner)).1 a ∧
      calculate r m.broker = (a, (m.step (.submit c.text c.owner)).2.broker) := by
  simp only [calculate, h, Moment.step]
  cases m.broker.submit c.text c.owner with
  | error e => exact ⟨_, .rejected e, rfl⟩
  | ok b => exact ⟨_, .submitted b.1, rfl⟩

/-- Offering a task is answered by what comes of it. -/
theorem exists_tells_offerTask :
    ∃ a, Tells (m.step .poll).1 a ∧
      offerTask m.now m.broker = (a, (m.step .poll).2.broker) := by
  simp only [offerTask, Moment.step]
  obtain ⟨offer, b⟩ := m.broker.poll m.now
  cases offer with
  | none => exact ⟨_, .idle, rfl⟩
  | some t => exact ⟨_, .offered t, rfl⟩

/-- Accepting a request's report is answered by what comes of it. -/
theorem exists_tells_acceptReport {report : Report} (h : r.read Report.decode = .ok report) :
    ∃ a, Tells (m.step (.report report)).1 a ∧
      acceptReport r m.broker = (a, (m.step (.report report)).2.broker) := by
  simp only [acceptReport, h, Moment.step]
  obtain ⟨outcome, b⟩ := m.broker.report report
  cases outcome with
  | error e => exact ⟨_, .refused e, rfl⟩
  | ok _ => exact ⟨_, .accepted, rfl⟩

/-- A resource answers a request, which is sent its portion of the answer. -/
theorem respond_of_resource {res : Resource} (h : resource? r.target = some res) (stamp : Json)
    (now : Time) (b : Broker) :
    respond stamp now r b =
      (r.portion (answer stamp now res (.ofMethod r.method) r b).1,
        (answer stamp now res (.ofMethod r.method) r b).2) := by
  simp only [respond, h, Request.portion, verb_eq_get_iff, if_true]
  split <;> rfl

/-- A request that brings about an event is answered by what comes of it. -/
theorem respond_of_event {ev : Event} (h : r.event? = some ev) (stamp : Json) (m : Moment) :
    ∃ a, Tells (m.step ev).1 a ∧
      respond stamp m.now r m.broker = (r.portion a, (m.step ev).2.broker) := by
  unfold Request.event? at h
  split at h
  · next hres hverb =>
    split at h
    · next c hread =>
      obtain rfl := Option.some.inj h
      obtain ⟨a, htells, ha⟩ := exists_tells_calculate (m := m) hread
      refine ⟨a, htells, ?_⟩
      rw [respond_of_resource hres, hverb, answer, ha]
    · contradiction
  · next hres hverb =>
    split at h
    · next report hread =>
      obtain rfl := Option.some.inj h
      obtain ⟨a, htells, ha⟩ := exists_tells_acceptReport (m := m) hread
      refine ⟨a, htells, ?_⟩
      rw [respond_of_resource hres, hverb, answer, ha]
    · contradiction
  · next headOnly hres hverb =>
    obtain rfl := Option.some.inj h
    obtain ⟨a, htells, ha⟩ := exists_tells_offerTask (m := m)
    refine ⟨a, htells, ?_⟩
    rw [respond_of_resource hres, hverb, answer, ha]
  · contradiction

/-- A request that brings about no event leaves the broker as it was. -/
theorem respond_of_no_event (h : r.event? = none) (stamp : Json) (now : Time) (b : Broker) :
    (respond stamp now r b).2 = b := by
  cases hres : resource? r.target with
  | none => simp [respond, hres]
  | some res =>
    rw [respond_of_resource hres]
    generalize hverb : Verb.ofMethod r.method = verb
    simp only [Request.event?, hres, hverb] at h
    unfold answer
    split
    · cases hread : r.read Calculation.decode with
      | error a => simp [calculate, hread]
      | ok c => simp [hread] at h
    · rfl
    · rfl
    · contradiction
    · cases hread : r.read Report.decode with
      | error a => simp [acceptReport, hread]
      | ok report => simp [hread] at h
    · rfl
    · rfl

end Http

/-! ## Events and claims -/

/-- A task that nobody holds in one queue is held in another. -/
def Queue.TakesUp (q q' : Queue) (t : Task) : Prop :=
  ⟨t, none⟩ ∈ q.entries ∧ ∃ d, ⟨t, some d⟩ ∈ q'.entries

/-- A queue that stays the same takes nothing up. -/
theorem Queue.IsOrdered.not_takesUp {q : Queue} (hq : q.IsOrdered) (t : Task) :
    ¬ q.TakesUp q t := by
  rintro ⟨hfree, d, hheld⟩
  exact absurd (hq.eq_of_id_eq hheld hfree rfl) (by simp)

/-- From one broker to another, expressions with a lapsed claim time out and their tasks are
dropped, and nothing else happens to the table and the queue. -/
structure Broker.OnlyTimesOut (now : Time) (b b' : Broker) : Prop where
  lastTask : b'.queue.lastId = b.queue.lastId
  lastExpression : b'.table.lastId = b.table.lastId
  entries : b'.queue.entries =
    b.queue.entries.filter (·.task.expression ∉ b.queue.lapsing now)
  expressions : b'.table.expressions = b.table.expressions.map fun e =>
    if e.id ∈ b.queue.lapsing now then { e with status := .failed "timeout" } else e

namespace Moment

open Http

variable {m : Moment}

/-- An event takes up the task that it offers, and no other. -/
theorem takesUp_step_iff (hm : m.broker.IsConsistent) (ev : Event) {t : Task} :
    m.broker.queue.TakesUp (m.step ev).2.broker.queue t ↔ (m.step ev).1 = .offered (some t) := by
  constructor
  · rintro ⟨hfree, d, hheld⟩
    rcases mem_or_offered_of_step hm.isOrdered ev hheld rfl with hold | hoffered
    · exact absurd ⟨hfree, d, hold⟩ (hm.queue.not_takesUp t)
    · exact hoffered
  · intro hoffered
    obtain rfl := eq_poll_of_offered hoffered
    rcases entries_poll hm with ⟨hnone, _⟩ | ⟨t', before, behind, hsome, hkept, hentries⟩
    · simp [hoffered] at hnone
    · obtain rfl : t = t' := by simpa [hoffered] using hsome
      refine ⟨?_, m.now + t.claimWindow, ?_⟩
      · have hfree : ⟨t, none⟩ ∈ before ++ ⟨t, none⟩ :: behind := by simp
        rw [← hkept] at hfree
        exact List.mem_of_mem_filter hfree
      · rw [hentries]
        exact List.mem_append_right _ List.mem_cons_self

/-- A submitted expression has the next number. -/
theorem eq_of_submitted {text : String} {owner : Nat} {x : ExpressionId}
    (h : (m.step (.submit text owner)).1 = .submitted x) : x = m.broker.table.lastId + 1 := by
  simp only [step] at h
  split at h
  · contradiction
  · next hsubmit =>
    obtain rfl := Reply.submitted.inj h
    exact (Broker.exists_sameNumbers_submit hsubmit).1

/-- A text that is rejected changes nothing. -/
theorem step_of_rejected {ev : Event} {e : InfixError} (h : (m.step ev).1 = .rejected e) :
    (m.step ev).2 = m := by
  cases ev with
  | submit text owner =>
    simp only [step] at h ⊢
    split at h
    · rfl
    · contradiction
  | poll => contradiction
  | report r =>
    simp only [step] at h
    split at h <;> contradiction
  | reclaim id => contradiction
  | wait ms => contradiction

/-- A report that is refused changes nothing. -/
theorem step_of_refused (hm : m.broker.IsConsistent) {ev : Event} {e : LookupError}
    (h : (m.step ev).1 = .refused e) : (m.step ev).2 = m := by
  cases ev with
  | submit text owner =>
    simp only [step] at h
    split at h <;> contradiction
  | poll => contradiction
  | report r =>
    cases hfind : m.broker.queue.get? r.id with
    | none => rw [step_report_of_get?_eq_none hfind]
    | some q =>
      obtain ⟨e', hget⟩ := Broker.exists_get?_of_queued hm.isOrdered (Queue.mem_of_get? hfind).1
      rw [step_report_of_queued hfind hget] at h
      contradiction
  | reclaim id => contradiction
  | wait ms => contradiction

/-- A poll that finds no task to offer only times out. -/
theorem onlyTimesOut_step_poll (hm : m.broker.IsConsistent)
    (h : (m.step .poll).1 = .offered none) :
    m.broker.OnlyTimesOut m.now (m.step .poll).2.broker := by
  have hreaped : (m.step .poll).2.broker = (m.broker.reap m.now).gauge := by
    simp only [step, Broker.poll] at h ⊢
    cases hclaim : (m.broker.reap m.now).queue.claim m.now with
    | none => rfl
    | some c => simp [hclaim] at h
  rw [hreaped]
  exact ⟨Broker.reap_lastId m.now m.broker, (Broker.proceeds_reap m.now m.broker).2.lastId_eq,
    Broker.entries_reap hm.queue m.now, Broker.expressions_reap_of_lapsing hm m.now⟩

/-! ## Events and answers -/

/-- An event whose answer tells of a client's error has changed nothing, or is a poll that has found
no task. -/
theorem eq_or_idle_of_tells (hm : m.broker.IsConsistent) {ev : Event} {a : Response}
    (h : Tells (m.step ev).1 a) (hstatus : 400 ≤ a.status) :
    ev ≠ .poll ∧ (m.step ev).2 = m ∨
      ev = .poll ∧ (m.step .poll).1 = .offered none ∧ a.status = 404 := by
  generalize hreply : (m.step ev).1 = reply at h
  cases h with
  | submitted id => simp at hstatus
  | offered t => simp at hstatus
  | accepted => simp at hstatus
  | rejected e =>
    refine .inl ⟨?_, step_of_rejected hreply⟩
    rintro rfl
    contradiction
  | refused e =>
    refine .inl ⟨?_, step_of_refused hm hreply⟩
    rintro rfl
    contradiction
  | idle =>
    obtain rfl := eq_poll_of_offered hreply
    exact .inr ⟨rfl, hreply, rfl⟩

/-- A report is answered with success if and only if its task is queued. -/
theorem status_eq_ok_iff_of_tells (hm : m.broker.IsConsistent) {report : Report} {a : Response}
    (h : Tells (m.step (.report report)).1 a) :
    a.status = 200 ↔ ∃ q ∈ m.broker.queue.entries, q.task.id = report.id := by
  rw [← report_eq_ok_iff hm]
  simp only [step] at h
  split at h
  · next hreport =>
    cases h
    simp [hreport]
  · next hreport =>
    cases h
    simp [hreport, Response.error]

/-- A submission is answered with success if and only if the text compiles. -/
theorem status_eq_created_iff_of_tells {text : String} {owner : Nat} {a : Response}
    (h : Tells (m.step (.submit text owner)).1 a) :
    a.status = 201 ↔ ∃ p, Infix.compile text = .ok p := by
  simp only [step, Broker.submit] at h
  cases hcompile : Infix.compile text with
  | error e =>
    rw [hcompile] at h
    cases h
    simp [Response.error]
  | ok p =>
    rw [hcompile] at h
    cases h
    simp

/-! ## Requests of a run -/

/-- A request leads from a reachable moment to a reachable one. -/
theorem Reachable.respond (h : m.Reachable) (stamp : Json) (r : Request) :
    Reachable { m with broker := (respond stamp m.now r m.broker).2 } := by
  cases hevent : r.event? with
  | none =>
    rw [respond_of_no_event hevent]
    exact h
  | some ev =>
    obtain ⟨a, _, ha⟩ := respond_of_event hevent stamp m
    have hnow := now_step m fun ms hwait => r.event?_ne_wait ms (hwait ▸ hevent)
    have hstep := h.step ev
    rwa [ha, ← hnow]

/-- In every reachable moment a request takes a task up if and only if it is a poll and the task is
the one that is offered. A client that asks for the whole answer is handed the task. For one that
asks for the head alone the task is taken up all the same, and the answer has no body. -/
theorem Reachable.taken_up_by_polls (h : m.Reachable) (stamp : Json) (r : Request) (t : Task) :
    let a := Http.respond stamp m.now r m.broker
    (m.broker.queue.TakesUp a.2.queue t ↔ r.IsPoll ∧ (m.broker.poll m.now).1 = some t) ∧
      (m.broker.queue.TakesUp a.2.queue t →
        r.method = "GET" ∧ a.1 = ⟨200, .json (.record [("task", t.toJson)])⟩ ∨
          r.method = "HEAD" ∧ a.1 = ⟨200, .empty⟩) := by
  intro a
  have hm := h.isConsistent
  cases hevent : r.event? with
  | none =>
    have hsame : a.2 = m.broker := respond_of_no_event hevent stamp m.now m.broker
    have hnot : ¬ m.broker.queue.TakesUp a.2.queue t := by
      rw [hsame]
      exact hm.queue.not_takesUp t
    have hpoll : ¬ r.IsPoll := by simp [← Request.event?_eq_poll_iff, hevent]
    exact ⟨iff_of_false hnot fun hboth => hpoll hboth.1, fun htaken => absurd htaken hnot⟩
  | some ev =>
    obtain ⟨answer, htells, hanswer⟩ := respond_of_event hevent stamp m
    have ha : a = (r.portion answer, (m.step ev).2.broker) := hanswer
    rw [ha, takesUp_step_iff hm]
    refine ⟨?_, fun hoffered => ?_⟩
    · constructor
      · intro hoffered
        obtain rfl := eq_poll_of_offered hoffered
        exact ⟨Request.event?_eq_poll_iff.mp hevent, Reply.offered.inj hoffered⟩
      · rintro ⟨hpoll, hoffered⟩
        obtain rfl : ev = .poll := by
          simpa [hevent] using Request.event?_eq_poll_iff.mpr hpoll
        exact congrArg Reply.offered hoffered
    · obtain rfl := eq_poll_of_offered hoffered
      rw [hoffered] at htells
      cases htells
      rcases Request.event?_eq_poll_iff.mp hevent with hget | hhead
      · exact .inl ⟨hget.1, by simp [Request.portion, hget.1, Task.envelope]⟩
      · exact .inr ⟨hhead.1, by simp [Request.portion, hhead.1, Response.head]⟩

/-- After a sum is submitted, a poll takes its task up and hands it to the client. -/
theorem taken_up_by_polls_of_sum :
    let m := after {} [.submit "1+2" 7]
    let r : Request := { method := "GET", target := .ofString "/internal/task?worker=w" }
    let t : Task := ⟨⟨1, .add, 1, 2, 1000⟩, 1⟩
    let a := Http.respond .null m.now r m.broker
    m.Reachable ∧ m.broker.queue.TakesUp a.2.queue t ∧
      a.1 = ⟨200, .json (.record [("task", t.toJson)])⟩ := by
  intro m r t a
  have hreachable : m.Reachable := ⟨{}, _, rfl⟩
  obtain ⟨htaken, hanswer⟩ := hreachable.taken_up_by_polls .null r t
  have htakes := htaken.mpr ⟨by decide +kernel, by decide +kernel⟩
  have hget : r.method ≠ "HEAD" := by decide
  exact ⟨hreachable, htakes, ((hanswer htakes).resolve_right fun hhead => hget hhead.1).2⟩

/-- A poll for the head of the answer alone takes the same task up, and nobody is told which. -/
theorem taken_up_without_body :
    let m := after {} [.submit "1+2" 7]
    let r : Request := { method := "HEAD", target := .ofString "/internal/task" }
    let t : Task := ⟨⟨1, .add, 1, 2, 1000⟩, 1⟩
    let a := Http.respond .null m.now r m.broker
    m.Reachable ∧ m.broker.queue.TakesUp a.2.queue t ∧ a.1 = ⟨200, .empty⟩ ∧
      a.1 ≠ ⟨200, .json (.record [("task", t.toJson)])⟩ := by
  intro m r t a
  have hreachable : m.Reachable := ⟨{}, _, rfl⟩
  have hevent : r.event? = some .poll := Request.event?_eq_poll_iff.mpr (by decide +kernel)
  have hoffered : (m.step .poll).1 = .offered (some t) := by decide +kernel
  obtain ⟨answer, htells, hanswer⟩ := respond_of_event hevent .null m
  rw [hoffered] at htells
  cases htells
  have ha : a = (⟨200, .empty⟩, (m.step .poll).2.broker) := hanswer
  have htakes := (takesUp_step_iff hreachable.isConsistent .poll).mpr hoffered
  rw [ha]
  exact ⟨hreachable, htakes, rfl, by simp⟩

/-- In every reachable moment a request that is answered with the status of a client's error leaves
the broker as it was, unless it is a poll. A poll that is answered so has found no task, and no more
than times out the expressions with a lapsed claim. A report that can be read is answered with
success if and only if its task is queued. An expression that can be read is answered with success
if and only if its text compiles, and then it is put behind the others under the number that the
answer tells. Every request, rejected or not, leads to a reachable moment again. -/
theorem Reachable.rejections_change_nothing (h : m.Reachable) (stamp : Json) (r : Request) :
    let a := Http.respond stamp m.now r m.broker
    (400 ≤ a.1.status → a.1.status < 500 →
      (¬ r.IsPoll → a.2 = m.broker) ∧
      (r.IsPoll → a.1.status = 404 ∧ m.broker.OnlyTimesOut m.now a.2)) ∧
    (∀ report, r.Asks "POST" "/internal/task" → r.Carries Report.decode report →
      (a.1.status = 200 ↔ ∃ q ∈ m.broker.queue.entries, q.task.id = report.id)) ∧
    (∀ c, r.Asks "POST" "/api/v1/calculate" → r.Carries Calculation.decode c →
      (a.1.status = 201 ↔ ∃ p, Infix.compile c.text = .ok p) ∧
      (a.1.status = 201 → ∃ e, a.1.body = .json (.record [("id", .natural e.id)]) ∧
        e.id = m.broker.table.lastId + 1 ∧ e.text = c.text ∧ e.owner = c.owner ∧
        a.2.table.expressions = m.broker.table.expressions ++ [e])) ∧
    Reachable { m with broker := a.2 } := by
  intro a
  have hm := h.isConsistent
  refine ⟨fun hlow hhigh => ?_, fun report hasks hcarries => ?_, fun c hasks hcarries => ?_,
    h.respond stamp r⟩
  · cases hevent : r.event? with
    | none =>
      have hpoll : ¬ r.IsPoll := by simp [← Request.event?_eq_poll_iff, hevent]
      exact ⟨fun _ => respond_of_no_event hevent stamp m.now m.broker, fun h => absurd h hpoll⟩
    | some ev =>
      obtain ⟨answer, htells, hanswer⟩ := respond_of_event hevent stamp m
      have ha : a = (r.portion answer, (m.step ev).2.broker) := hanswer
      rw [ha] at hlow ⊢
      rw [Request.portion_status] at hlow
      rw [← Request.event?_eq_poll_iff, hevent]
      rcases eq_or_idle_of_tells hm htells hlow with ⟨hpoll, hsame⟩ | ⟨rfl, hidle, hstatus⟩
      · exact ⟨fun _ => congrArg broker hsame, fun h => absurd (Option.some.inj h) hpoll⟩
      · refine ⟨fun h => absurd rfl h, fun _ => ⟨?_, onlyTimesOut_step_poll hm hidle⟩⟩
        rw [Request.portion_status, hstatus]
  · obtain ⟨answer, htells, hanswer⟩ :=
      respond_of_event (Request.event?_of_report hasks hcarries) stamp m
    have ha : a = (r.portion answer, _) := hanswer
    rw [ha, Request.portion_status]
    exact status_eq_ok_iff_of_tells hm htells
  · obtain ⟨answer, htells, hanswer⟩ :=
      respond_of_event (Request.event?_of_calculation hasks hcarries) stamp m
    have ha : a = (r.portion answer, _) := hanswer
    have hcreated := status_eq_created_iff_of_tells htells
    rw [ha, Request.portion_status]
    refine ⟨hcreated, fun hstatus => ?_⟩
    obtain ⟨p, hcompile⟩ := hcreated.mp hstatus
    obtain ⟨e, _, m', hstep, hrows, howner, htext, _⟩ :=
      exists_appended_submit hm hcompile c.owner
    rw [hstep] at htells ⊢
    cases htells
    exact ⟨e, by simp [Request.portion, hasks.1], eq_of_submitted (congrArg Prod.fst hstep), htext,
      howner, hrows⟩

/-- The claim of a sum has lapsed and that of a product has not. A report on a task that is not
queued is refused and changes nothing. A poll finds no task and times the sum out. A report on the
product is accepted, and a difference is submitted under the next number. -/
theorem rejections_change_nothing_beside_lapsed_claim :
    let m := after {} [.submit "1+2" 7, .submit "3*4" 8, .poll, .poll, .wait 2000]
    let post (path body : String) : Request :=
      { method := "POST", target := .ofString path, contentType := some "application/json",
        body := body }
    let strange := post "/internal/task" "\x7b\"id\":9\x7d"
    let poll : Request := { method := "HEAD", target := .ofString "/internal/task" }
    let product := post "/internal/task" "\x7b\"id\":2,\"result\":12\x7d"
    let difference := post "/api/v1/calculate" "\x7b\"expression\":\"5-6\"\x7d"
    let answer (r : Request) := Http.respond .null m.now r m.broker
    m.Reachable ∧
      (answer strange).1.status = 404 ∧ (answer strange).2 = m.broker ∧
      (answer poll).1.status = 404 ∧
      (answer poll).2.table.expressions.map (·.status) = [.failed "timeout", .processing] ∧
      (answer poll).2.queue.entries.map (·.task.id) = [2] ∧
      (answer product).1.status = 200 ∧
      (answer difference).1 = ⟨201, .json (.record [("id", .natural 3)])⟩ := by
  intro m post strange poll product difference answer
  have hreachable : m.Reachable := ⟨{}, _, rfl⟩
  have h := hreachable.rejections_change_nothing .null
  have hbounds {status : Nat} (h : status = 404) : 400 ≤ status ∧ status < 500 := by omega
  have hstrange : (answer strange).1.status = 404 := by decide +kernel
  have hpoll : (answer poll).1.status = 404 := by decide +kernel
  obtain ⟨_, htimed⟩ :=
    ((h poll).1 (hbounds hpoll).1 (hbounds hpoll).2).2 (by decide +kernel)
  have hproduct : product.Carries Report.decode ⟨2, 12, none⟩ :=
    ⟨by decide +kernel, by decide +kernel, by decide +kernel⟩
  have hdifference : difference.Carries Calculation.decode ⟨"5-6", 0⟩ :=
    ⟨by decide +kernel, by decide +kernel, by decide +kernel⟩
  have hcompile : Infix.compile "5-6" = .ok [.number 5, .number 6, .operator .sub] := by
    decide +kernel
  obtain ⟨hcreated, hnew⟩ := (h difference).2.2.1 _ (by decide +kernel) hdifference
  have hstatus := hcreated.mpr ⟨_, hcompile⟩
  obtain ⟨e, hbody, hid, _⟩ := hnew hstatus
  have hlast : m.broker.table.lastId = 2 := by decide +kernel
  refine ⟨hreachable, hstrange, ?_, hpoll, ?_, ?_, ?_, ?_⟩
  · exact ((h strange).1 (hbounds hstrange).1 (hbounds hstrange).2).1 (by decide +kernel)
  · rw [htimed.expressions]
    decide +kernel
  · rw [htimed.entries]
    decide +kernel
  · exact ((h product).2.1 _ (by decide +kernel) hproduct).mpr (by decide +kernel)
  · rw [hid, hlast] at hbody
    exact congrArg₂ Response.mk hstatus hbody

end Moment

end Piecework
