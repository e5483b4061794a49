import Piecework.Broker.Run
import Piecework.Http.Api
import Piecework.Proofs.Json.Documents

/-!
# Wire formats read back

A record is read member by member, each under its own name, so a record written with the
names that its reader knows gives the reader the values that were written. Numbers have to
fit the words of the wire; signed values, symbols and strings always fit. Since the text
of a value gives the value back, two values never have the same text.
-/

namespace Piecework

/-! ## Members of a record -/

/-- The members of a record. -/
def Json.members : Json → List (String × Json)
  | record members => members
  | _ => []

namespace Parts

/-- A reader of some parts knows the name of a member, and the value passes the check of its part. -/
def Accept (known : List Part) (m : String × Json) : Prop :=
  ∃ part, known.find? (·.name = m.1) = some part ∧ part.check m.2.node = .ok ()

/-- A reader accepts a member whose value it can read. -/
theorem accept_of {α : Type} {known : List Part} {name : String} {v : Json} {x : α}
    {read : Node → Except DecodeError α}
    (hname : known.find? (·.name = name) = some (.of name read)) (hread : read v.node = .ok x) :
    Accept known (name, v) :=
  ⟨_, hname, by simp [Part.of, hread, Except.map]⟩

/-- The members of a record are found under their names, behind what was found before. -/
theorem exists_ofMembers {known : List Part} {members : List (String × Json)} {found : Parts}
    (haccept : ∀ m ∈ members, Accept known m) (hnodup : (members.map Prod.fst).Nodup)
    (hfresh : ∀ m ∈ members, found.lookup m.1 = none) :
    ∃ found', ofMembers known found none (Json.memberNodes members) = .ok found' ∧
      ∀ name, found'.lookup name = ((members.lookup name).map Json.node).or (found.lookup name) := by
  induction members generalizing found with
  | nil => exact ⟨found, rfl, fun name => by simp⟩
  | cons m members ih =>
    obtain ⟨k, v⟩ := m
    obtain ⟨⟨part, hpart, hcheck⟩, haccept⟩ := List.forall_mem_cons.mp haccept
    obtain ⟨hk, hfresh⟩ := List.forall_mem_cons.mp hfresh
    rw [List.map_cons, List.nodup_cons] at hnodup
    have hstep : ofMembers known found none (Json.memberNodes ((k, v) :: members)) =
        ofMembers known ((k, v.node) :: found) none (Json.memberNodes members) := by
      simp [Json.memberNodes, ofMembers, hpart, hk, hcheck]
    have hne : ∀ m ∈ members, m.1 ≠ k := by
      rintro m hm rfl
      exact hnodup.1 (List.mem_map.mpr ⟨m, hm, rfl⟩)
    have hlater : ∀ m ∈ members, List.lookup m.1 ((k, v.node) :: found) = none := by
      intro m hm
      rw [List.lookup_cons, beq_false_of_ne (hne m hm)]
      exact hfresh m hm
    obtain ⟨found', hfound', hlookup⟩ := ih haccept hnodup.2 hlater
    refine ⟨found', hstep.trans hfound', fun name => ?_⟩
    rw [hlookup]
    by_cases hname : name = k
    · -- No later member has the name, so the value found under it is this one.
      subst hname
      have hnone : members.lookup name = none :=
        List.lookup_eq_none_iff.mpr fun m hm => bne_iff_ne.mpr (hne m hm).symm
      simp [hnone]
    · simp [List.lookup_cons, beq_false_of_ne hname]

/-- The members of a written record are found under their names, if each has a name of its own. -/
theorem exists_ofNode {known : List Part} {v : Json} (hv : v = .record v.members)
    (haccept : ∀ m ∈ v.members, Accept known m) (hnodup : (v.members.map Prod.fst).Nodup) :
    ∃ found, ofNode known v.node = .ok found ∧
      ∀ name, found.lookup name = (v.members.lookup name).map Json.node := by
  obtain ⟨found, hfound, hlookup⟩ :=
    exists_ofMembers haccept hnodup fun m _ => (rfl : List.lookup m.1 ([] : Parts) = none)
  exact ⟨found, by rw [hv, Json.node, ofNode, hfound], fun name => by simp [hlookup]⟩

end Parts

/-! ## Values of members -/

/-- A number that fits a word is read as itself. -/
theorem Node.word_natural {n : Nat} (h : n ≤ wordMax) : (Json.natural n).node.word = .ok n := by
  simp [Json.natural, Json.node, Node.word, Node.natural, h]

/-- A signed 64-bit number is read as itself. -/
theorem Node.signed_integer (v : Int64) : (Json.integer v.toInt).node.signed = .ok v := by
  simp [Json.node, Node.signed, signed?_toInt]

/-- An operator is read from its symbol. -/
theorem Operator.decode_toJson (op : Operator) : decode op.toJson.node = .ok op := by
  cases op <;> rfl

/-- An integer of at most 20 digits is short. -/
theorem Json.isShort_of_lt {i : Int} (h : i.natAbs < 100000000000000000000) : Json.IsShort i := by
  have hlength := Decimal.length_digits_le (by decide) (show i.natAbs < Nat.pow 10 20 from h)
  exact Nat.le_trans hlength (by decide)

/-- A number that fits a word is short. -/
theorem Json.isShort_of_le_wordMax {n : Nat} (h : n ≤ wordMax) : Json.IsShort n :=
  Json.isShort_of_lt (Nat.lt_of_le_of_lt h (by decide))

/-- A signed 64-bit number is short. -/
theorem Json.isShort_toInt (v : Int64) : Json.IsShort v.toInt := by
  have hlow := Int64.minValue_le_toInt v
  have hhigh := Int64.toInt_le v
  rw [Int64.toInt_minValue] at hlow
  rw [Int64.toInt_maxValue] at hhigh
  exact Json.isShort_of_lt (by omega)

/-! ## Tasks -/

namespace Task

/-- The numbers of a task fit the words of the wire. -/
structure IsSendable (t : Task) : Prop where
  id_le : t.id ≤ wordMax
  expression_le : t.expression ≤ wordMax
  cost_le : t.cost ≤ wordMax

/-- The integers of a written task are short. -/
theorem IsSendable.allShort {t : Task} (h : t.IsSendable) : t.toJson.AllShort :=
  ⟨Json.isShort_of_le_wordMax h.id_le, Json.isShort_of_le_wordMax h.expression_le, trivial,
    Json.isShort_toInt t.left, Json.isShort_toInt t.right, Json.isShort_of_le_wordMax h.cost_le,
    trivial⟩

/-- A task is read from its tree. -/
theorem IsSendable.decode_node {t : Task} (h : t.IsSendable) : decode t.toJson.node = .ok t := by
  have hid := Node.word_natural h.id_le
  have hexpression := Node.word_natural h.expression_le
  have hcost := Node.word_natural h.cost_le
  have haccept : ∀ m ∈ t.toJson.members, Parts.Accept parts m := by
    simp only [toJson, Json.members, List.forall_mem_cons, List.not_mem_nil, false_implies,
      implies_true, and_true]
    exact ⟨Parts.accept_of rfl hid, Parts.accept_of rfl hexpression,
      Parts.accept_of rfl t.operator.decode_toJson, Parts.accept_of rfl (Node.signed_integer _),
      Parts.accept_of rfl (Node.signed_integer _), Parts.accept_of rfl hcost⟩
  have hnodup : (t.toJson.members.map Prod.fst).Nodup := by
    simp [toJson, Json.members]
  obtain ⟨found, hfound, hlookup⟩ := Parts.exists_ofNode rfl haccept hnodup
  rw [decode, hfound]
  simp [Parts.required, hlookup, toJson, Json.members, List.lookup_cons, hid, hexpression, hcost,
    Operator.decode_toJson, Node.signed_integer, bind, Except.bind, pure, Except.pure]

/-- A task is read from its text. -/
theorem IsSendable.read_compact {t : Task} (h : t.IsSendable) :
    Json.readWhole decode t.toJson.compact = .ok t :=
  (Json.readWhole_compact decode h.allShort).trans h.decode_node

/-- A task is read from the text in which it is handed out. -/
theorem IsSendable.read_envelope {t : Task} (h : t.IsSendable) :
    Json.readWhole decodeEnvelope t.envelope.compact = .ok t := by
  have haccept : ∀ m ∈ t.envelope.members, Parts.Accept [.of "task" decode] m := by
    simp only [envelope, Json.members, List.forall_mem_singleton]
    exact Parts.accept_of rfl h.decode_node
  have hnodup : (t.envelope.members.map Prod.fst).Nodup := by
    simp [envelope, Json.members]
  obtain ⟨found, hfound, hlookup⟩ := Parts.exists_ofNode rfl haccept hnodup
  have hshort : t.envelope.AllShort := ⟨h.allShort, trivial⟩
  rw [Json.readWhole_compact decodeEnvelope hshort, decodeEnvelope, hfound]
  simp [Parts.required, hlookup, envelope, Json.members, h.decode_node, bind, Except.bind]

end Task

/-! ## Reports -/

namespace Report

/-- A report whose task has a number that fits a word is read from its text. -/
theorem read_compact {r : Report} (h : r.id ≤ wordMax) :
    Json.readWhole decode r.toJson.compact = .ok r := by
  obtain ⟨id, result, error⟩ := r
  have hid := Node.word_natural h
  have hresult := Node.signed_integer result
  have herror (e : String) : Node.optional Node.string (Json.text e).node = .ok (some e) := rfl
  have hshort : (toJson ⟨id, result, error⟩).AllShort := by
    have hnumbers := And.intro (Json.isShort_of_le_wordMax h) (Json.isShort_toInt result)
    cases error with
    | none => exact ⟨hnumbers.1, hnumbers.2, trivial⟩
    | some e => exact ⟨hnumbers.1, hnumbers.2, trivial, trivial⟩
  have haccept : ∀ m ∈ (toJson ⟨id, result, error⟩).members, Parts.Accept parts m := by
    cases error with
    | none =>
      simp only [toJson, Json.members, List.append_nil, List.forall_mem_cons, List.not_mem_nil,
        false_implies, implies_true, and_true]
      exact ⟨Parts.accept_of rfl hid, Parts.accept_of rfl hresult⟩
    | some e =>
      simp only [toJson, Json.members, List.cons_append, List.nil_append, List.forall_mem_cons,
        List.not_mem_nil, false_implies, implies_true, and_true]
      exact ⟨Parts.accept_of rfl hid, Parts.accept_of rfl hresult, Parts.accept_of rfl (herror e)⟩
  have hnodup : ((toJson ⟨id, result, error⟩).members.map Prod.fst).Nodup := by
    cases error <;> simp [toJson, Json.members]
  obtain ⟨found, hfound, hlookup⟩ := Parts.exists_ofNode rfl haccept hnodup
  rw [Json.readWhole_compact decode hshort, decode, hfound]
  cases error <;>
    simp [Parts.required, Parts.orElse, hlookup, toJson, Json.members, List.lookup_cons, hid,
      hresult, herror, bind, Except.bind, pure, Except.pure]

end Report

/-! ## Statuses -/

namespace Status

/-- A variant's name and then its content are read as the variant with the content. -/
theorem ofMembers_of_variant (variant : String) {t : Variant}
    (h : Variant.ofName variant = .ok t) (v : Node) :
    ofMembers none .nothing [(.ok "status", .text (.ok variant)), (.ok "value", v)] =
      content t v := by
  unfold ofMembers
  simp only [if_pos, Variant.decode, h]
  unfold ofMembers
  cases hcontent : content t v with
  | error e => simp [hcontent]
  | ok s =>
    simp only [hcontent]
    rfl

/-- A status is read from its text. -/
theorem read_compact (s : Status) : Json.readWhole decode s.toJson.compact = .ok s := by
  cases s with
  | processing =>
    have hshort : (toJson processing).AllShort := ⟨trivial, trivial⟩
    rw [Json.readWhole_compact decode hshort]
    rfl
  | done v =>
    have hshort : (toJson (done v)).AllShort := ⟨trivial, Json.isShort_toInt v, trivial⟩
    rw [Json.readWhole_compact decode hshort]
    refine (ofMembers_of_variant "done" rfl _).trans ?_
    rw [content, Node.signed_integer]
    rfl
  | failed reason =>
    have hshort : (toJson (failed reason)).AllShort := ⟨trivial, trivial, trivial⟩
    rw [Json.readWhole_compact decode hshort]
    exact ofMembers_of_variant "error" rfl _

end Status

/-! ## All formats -/

/-- Every task whose numbers fit the words of the wire is read from its text, and from the text in
which a poll hands it out; so is every report on a task whose number fits, and every status. Two
tasks, reports or statuses with the same text are the same. -/
theorem wire_formats_round_trip :
    (∀ t : Task, t.IsSendable →
      Json.readWhole Task.decode t.toJson.compact = .ok t ∧
      Json.readWhole Task.decodeEnvelope t.envelope.compact = .ok t ∧
      ∀ (now : Time) (b : Broker), (b.poll now).1 = some t →
        (Http.offerTask now b).1 = ⟨200, .json t.envelope⟩) ∧
    (∀ r : Report, r.id ≤ wordMax → Json.readWhole Report.decode r.toJson.compact = .ok r) ∧
    (∀ s : Status, Json.readWhole Status.decode s.toJson.compact = .ok s) ∧
    (∀ t t' : Task, t.IsSendable → t'.IsSendable → t.toJson.compact = t'.toJson.compact → t = t') ∧
    (∀ r r' : Report, r.id ≤ wordMax → r'.id ≤ wordMax →
      r.toJson.compact = r'.toJson.compact → r = r') ∧
    ∀ s s' : Status, s.toJson.compact = s'.toJson.compact → s = s' := by
  have hsame {α : Type} {x y : α} {read : Node → Except DecodeError α} {text text' : String}
      (hx : Json.readWhole read text = .ok x) (hy : Json.readWhole read text' = .ok y)
      (htext : text = text') : x = y := by
    rw [htext] at hx
    exact Except.ok.inj (hx.symm.trans hy)
  refine ⟨fun t ht => ⟨ht.read_compact, ht.read_envelope, fun now b hpoll => ?_⟩,
    fun r hr => Report.read_compact hr, Status.read_compact,
    fun t t' ht ht' => hsame ht.read_compact ht'.read_compact,
    fun r r' hr hr' => hsame (Report.read_compact hr) (Report.read_compact hr'),
    fun s s' => hsame s.read_compact s'.read_compact⟩
  rw [Http.offerTask]
  split
  · next hnone => simp [hnone] at hpoll
  · next t' b' hsome =>
    obtain rfl : t' = t := by simpa [hsome] using hpoll
    rfl

/-- A task that a poll hands out and one with numbers at the ends of their ranges are read from
their texts, and these differ. So is a report whose error has a quotation mark, a backslash and a
control character, and its text differs from that of the report without an error. -/
theorem wire_formats_round_trip_at_ends :
    let b := (Moment.after {} [.submit "1+2" 7]).broker
    let t : Task := ⟨⟨1, .add, 1, 2, 1000⟩, 1⟩
    let t' : Task := ⟨⟨wordMax, .div, Int64.minValue, Int64.maxValue, 0⟩, wordMax⟩
    let r : Report := ⟨wordMax, Int64.minValue, some "\"no\" \\ \x01 é"⟩
    t.IsSendable ∧ t'.IsSendable ∧ r.id ≤ wordMax ∧
      Json.readWhole Task.decodeEnvelope t'.envelope.compact = .ok t' ∧
      (b.poll 0).1 = some t ∧ (Http.offerTask 0 b).1 = ⟨200, .json t.envelope⟩ ∧
      t.toJson.compact ≠ t'.toJson.compact ∧
      Json.readWhole Report.decode r.toJson.compact = .ok r ∧
      r.toJson.compact ≠ (Report.toJson { r with error := none }).compact ∧
      (Status.done 0).toJson.compact ≠ (Status.failed "0").toJson.compact := by
  intro b t t' r
  have ht : t.IsSendable := ⟨by decide, by decide, by decide⟩
  have ht' : t'.IsSendable := ⟨by decide, by decide, by decide⟩
  have hr : r.id ≤ wordMax := by decide
  have hpoll : (b.poll 0).1 = some t := by decide +kernel
  obtain ⟨htasks, hreports, _, htask, hreport, hstatus⟩ := wire_formats_round_trip
  refine ⟨ht, ht', hr, (htasks t' ht').2.1, hpoll, (htasks t ht).2.2 0 b hpoll, fun htext => ?_,
    hreports r hr, fun htext => ?_, fun htext => ?_⟩
  · exact absurd (htask t t' ht ht' htext) (by decide)
  · exact absurd (hreport r { r with error := none } hr hr htext) (by decide)
  · exact absurd (hstatus _ _ htext) (by decide)

end Piecework
