import Mathlib.Data.List.Perm.Subperm
import Piecework.Proofs.Deadlines

/-!
# The alarms that a source can ring

A worker that has been asked to stop fetches no more, so the only alarms that its source still rings
are those that are set already. A source without alarms of its own has none. The broker's site has
one for each claim and one for each straggler, and every one that rings is gone for good: a report
brings up no claim, and a watchdog that rings in time finds its claim lapsed.
-/

namespace Piecework

/-- On the states of a source with a property, which every call keeps, `rings` counts the alarms
that the source can still ring: its bound allows for them, no report adds one, and one that rings
is gone. -/
structure Source.Counts {σ : Type} (src : Source σ) (P : σ → Prop) (rings : σ → Nat) : Prop where
  fetch : ∀ now x, P x → P (src.fetch now x).2
  send : ∀ now r x, P x → P (src.send now r x).2
  ring : ∀ now x, P x → P (src.ring now x)
  send_le : ∀ now r x, P x → rings (src.send now r x).2 ≤ rings x
  ring_lt : ∀ now x a, P x → src.alarm? x = some a → a.due ≤ now →
    rings (src.ring now x) < rings x
  le_bound : ∀ x, P x → rings x ≤ src.bound x

/-- A source without alarms of its own has none to count. -/
theorem Source.counts_of_alarm? {σ : Type} {src : Source σ} {P : σ → Prop}
    (hfetch : ∀ now x, P x → P (src.fetch now x).2)
    (hsend : ∀ now r x, P x → P (src.send now r x).2) (hring : ∀ now x, P x → P (src.ring now x))
    (halarm : ∀ x, src.alarm? x = none) : src.Counts P fun _ => 0 where
  fetch := hfetch
  send := hsend
  ring := hring
  send_le := fun _ _ _ _ => Nat.le_refl 0
  ring_lt := fun _ x a _ ha => by simp [halarm x] at ha
  le_bound := fun _ _ => Nat.zero_le _

/-- A script goes on with its receipts and has no alarms. -/
theorem Script.counts_source : Script.source.Counts (.crashed ∉ ·.receipts) fun _ => 0 := by
  refine Source.counts_of_alarm? (fun now x hx => ?_) (fun now r x hx => ?_) (fun _ _ hx => hx)
    fun _ => rfl
  · change .crashed ∉ (x.fetch now).2.receipts
    unfold Script.fetch
    split <;> exact hx
  · change .crashed ∉ (x.send now r).2.receipts
    unfold Script.send
    split
    · exact hx
    · next r rest hreceipts =>
      rw [hreceipts] at hx
      exact fun hmem => hx (List.mem_cons_of_mem r hmem)

/-! ## The site -/

/-- A report brings up no claim. -/
theorem Broker.claimed_report_le {b : Broker} (hb : b.IsConsistent) (r : Report) :
    (b.report r).2.queue.claimed ≤ b.queue.claimed := by
  let m : Moment := ⟨0, b⟩
  have hmoment : (m.step (.report r)).2.broker = (b.report r).2 := by
    simp only [Moment.step, m]
    rcases b.report r with ⟨_ | _, b'⟩ <;> rfl
  have hafter : (b.report r).2.IsConsistent := hmoment ▸ Moment.isConsistent_step (m := m) hb _
  have hnodup : ((b.report r).2.queue.entries.filter (·.isClaimed)).Nodup :=
    hafter.isOrdered.queue.nodup.of_map.filter _
  have hsubset : (b.report r).2.queue.entries.filter (·.isClaimed) ⊆
      b.queue.entries.filter (·.isClaimed) := fun q hq => by
    obtain ⟨hmem, hclaimed⟩ := List.mem_filter.mp hq
    rw [← hmoment] at hmem
    rcases Moment.mem_or_offered_of_step (m := m) hb.isOrdered _ hmem hclaimed with hold | hoffered
    · exact List.mem_filter.mpr ⟨hold, hclaimed⟩
    · exact absurd (Moment.eq_poll_of_offered hoffered) (by simp)
  rw [Queue.claimed, Queue.claimed, List.countP_eq_length_filter, List.countP_eq_length_filter]
  exact (List.subperm_of_subset hnodup hsubset).length_le

namespace Site

variable {s : Site}

/-- An alarm that rings in time is gone. -/
theorem length_alarms_ring_lt (hs : s.broker.IsConsistent) {a : Alarm Callee}
    (ha : s.alarm? = some a) {now : Time} (hdue : a.due ≤ now) :
    (s.ring now).alarms.length < s.alarms.length := by
  have hring : s.ring now = s.answer now a.call := by rw [ring, ha]
  rw [hring, length_alarms_eq, length_alarms_eq]
  rcases List.mem_append.mp (Alarm.first?_spec ha).1 with hwatchdog | hstraggler
  · obtain ⟨q, hmem, hq⟩ := List.mem_filterMap.mp hwatchdog
    obtain ⟨d, hd, rfl⟩ := Option.map_eq_some_iff.mp hq
    have hlapsed : q.hasLapsed now = true := Entry.hasLapsed_iff.mpr ⟨d, hd, hdue⟩
    exact Nat.add_lt_add_right
      (Broker.claimed_reclaim_lt hs.isOrdered.queue hmem hlapsed) _
  · obtain ⟨l, hl, rfl⟩ := List.mem_map.mp hstraggler
    have hfewer : (s.stragglers.filter (·.task.id ≠ l.task.id)).length < s.stragglers.length :=
      List.length_filter_lt_length_iff_exists.mpr ⟨l, hl, by simp⟩
    exact Nat.add_lt_add_of_le_of_lt (Broker.claimed_report_le hs l.task.compute) hfewer

/-- A site counts its alarms. -/
theorem counts_source : source.Counts (·.broker.IsConsistent) (·.alarms.length) where
  fetch := fun now s hs => by
    have hnext := Moment.isConsistent_step (m := s.moment now) hs .poll
    rwa [← moment_fetch] at hnext
  send := fun now r s hs => by
    have hnext := Moment.isConsistent_step (m := s.moment now) hs (.report r)
    rwa [← moment_send] at hnext
  ring := fun now s hs => by
    change (s.ring now).broker.IsConsistent
    rw [ring]
    split
    · exact hs
    · next a _ =>
      have hnext := Moment.isConsistent_step (m := s.moment now) hs a.call.event
      rwa [← moment_answer] at hnext
  send_le := fun now r s hs => by
    have hsend : (s.send now r).2 = { s with broker := (s.broker.report r).2 } := by
      rw [send]
      rcases s.broker.report r with ⟨_ | _, b⟩ <;> rfl
    change (s.send now r).2.alarms.length ≤ s.alarms.length
    rw [hsend, length_alarms_eq, length_alarms_eq]
    exact Nat.add_le_add_right (Broker.claimed_report_le hs r) _
  ring_lt := fun now s a hs ha hdue => by
    obtain ⟨b, hb, rfl⟩ := Option.map_eq_some_iff.mp ha
    exact length_alarms_ring_lt hs hb hdue
  le_bound := fun s _ => Nat.le_add_left _ _

end Site

end Piecework
