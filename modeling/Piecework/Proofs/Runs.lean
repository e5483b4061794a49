import Mathlib.Data.List.Basic
import Mathlib.Data.List.TakeWhile
import Piecework.Runs

/-!
# The runs of a text

Every text has one row of longest runs: the first run stands behind the characters of another kind
with which the text begins, and the others are the runs of what stands behind it.
-/

namespace Piecework

variable {kind : Char → Bool} {cs : List Char} {rs rs' : List (List Char)}

/-- The first run of a text is found behind the characters of another kind. -/
theorem dropWhile_and_takeWhile_of_run {before run behind : List Char}
    (hbefore : ∀ c ∈ before, kind c = false) (hne : run ≠ []) (hrun : ∀ c ∈ run, kind c = true)
    (hbehind : ∀ c ∈ behind.head?, kind c = false) :
    (before ++ run ++ behind).dropWhile (! kind ·) = run ++ behind ∧
      (run ++ behind).takeWhile kind = run ∧ (run ++ behind).dropWhile kind = behind := by
  refine ⟨?_, ?_, ?_⟩
  · rw [List.append_assoc, List.dropWhile_append_of_pos (by simpa using hbefore)]
    cases run with
    | nil => contradiction
    | cons c run => simp [hrun c List.mem_cons_self]
  · rw [List.takeWhile_append_of_pos hrun]
    cases behind with
    | nil => simp
    | cons c behind => simp [hbehind c rfl]
  · rw [List.dropWhile_append_of_pos hrun]
    cases behind with
    | nil => rfl
    | cons c behind => simp [hbehind c rfl]

/-- A text has only one row of runs. -/
theorem HasRuns.unique (h : HasRuns kind cs rs) (h' : HasRuns kind cs rs') : rs = rs' := by
  induction h generalizing rs' with
  | @none cs hnone =>
    cases h' with
    | none => rfl
    | @cons before run behind rs' _ hne hrun _ _ =>
      obtain ⟨c, hc⟩ := List.exists_mem_of_ne_nil run hne
      have hother := hnone c (by simp [hc])
      exact absurd ((hrun c hc).symm.trans hother) (by decide)
  | @cons before run behind rs hbefore hne hrun hbehind _ ih =>
    obtain ⟨hdrop, htake, hrest⟩ := dropWhile_and_takeWhile_of_run hbefore hne hrun hbehind
    generalize htext : before ++ run ++ behind = text at h' hdrop
    cases h' with
    | none hnone =>
      obtain ⟨c, hc⟩ := List.exists_mem_of_ne_nil run hne
      have hother := hnone c (by simp [← htext, hc])
      exact absurd ((hrun c hc).symm.trans hother) (by decide)
    | cons hbefore' hne' hrun' hbehind' hruns' =>
      obtain ⟨hdrop', htake', hrest'⟩ :=
        dropWhile_and_takeWhile_of_run hbefore' hne' hrun' hbehind'
      have hsame := hdrop.symm.trans hdrop'
      rw [← hsame, htake] at htake'
      rw [← hsame, hrest] at hrest'
      subst htake' hrest'
      rw [ih hruns']

/-- Every text has a row of runs. -/
theorem exists_hasRuns (kind : Char → Bool) (cs : List Char) : ∃ rs, HasRuns kind cs rs := by
  induction hlength : cs.length using Nat.strong_induction_on generalizing cs with
  | _ n ih =>
    subst hlength
    have hbefore : ∀ c ∈ cs.takeWhile (! kind ·), kind c = false := fun c hc => by
      simpa using List.mem_takeWhile_imp hc
    cases hrest : cs.dropWhile (! kind ·) with
    | nil =>
      have hall := List.takeWhile_append_dropWhile (p := (! kind ·)) (l := cs)
      rw [hrest, List.append_nil] at hall
      exact ⟨[], .none (hall ▸ hbefore)⟩
    | cons c rest =>
      have hc : kind c = true := by
        have hfirst := List.head?_dropWhile_not (! kind ·) cs
        simpa [hrest] using hfirst
      have hbehind : ∀ d ∈ (rest.dropWhile kind).head?, kind d = false := fun d hd => by
        have hfirst := List.head?_dropWhile_not kind rest
        rwa [Option.mem_def.mp hd] at hfirst
      have hshorter : (rest.dropWhile kind).length < cs.length := by
        have hle := (List.dropWhile_sublist (! kind ·) (l := cs)).length_le
        have hle' := (List.dropWhile_sublist kind (l := rest)).length_le
        rw [hrest, List.length_cons] at hle
        exact Nat.lt_of_le_of_lt hle' hle
      obtain ⟨rs, hrs⟩ := ih _ hshorter (rest.dropWhile kind) rfl
      have hrun : ∀ d ∈ c :: rest.takeWhile kind, kind d = true :=
        List.forall_mem_cons.mpr ⟨hc, fun d hd => List.mem_takeWhile_imp hd⟩
      have hwhole := HasRuns.cons hbefore (List.cons_ne_nil _ _) hrun hbehind hrs
      rw [List.append_assoc, List.cons_append, List.takeWhile_append_dropWhile, ← hrest,
        List.takeWhile_append_dropWhile] at hwhole
      exact ⟨_, hwhole⟩

/-- Every text has exactly one row of runs. -/
theorem exists_hasRuns_iff (kind : Char → Bool) (cs : List Char) :
    ∃ rs, ∀ rs', HasRuns kind cs rs' ↔ rs' = rs := by
  obtain ⟨rs, hrs⟩ := exists_hasRuns kind cs
  refine ⟨rs, fun rs' => ⟨fun h => h.unique hrs, ?_⟩⟩
  rintro rfl
  exact hrs

/-- A text with a character of the kind has a run. -/
theorem HasRuns.ne_nil (h : HasRuns kind cs rs) {c : Char} (hc : c ∈ cs) (hkind : kind c = true) :
    rs ≠ [] := by
  cases h with
  | none hnone => exact absurd (hkind.symm.trans (hnone c hc)) (by decide)
  | cons => exact List.cons_ne_nil _ _

/-- The runs of two texts one after the other are those of both, unless a run is cut in two. -/
theorem HasRuns.append {cs' : List Char} (h : HasRuns kind cs rs) (h' : HasRuns kind cs' rs')
    (hcut : (∀ c ∈ cs.getLast?, kind c = false) ∨ ∀ c ∈ cs'.head?, kind c = false) :
    HasRuns kind (cs ++ cs') (rs ++ rs') := by
  induction h with
  | @none cs hnone =>
    cases h' with
    | none hnone' => exact .none (List.forall_mem_append.mpr ⟨hnone, hnone'⟩)
    | cons hbefore hne hrun hbehind hruns =>
      rw [← List.append_assoc, ← List.append_assoc]
      exact .cons (List.forall_mem_append.mpr ⟨hnone, hbefore⟩) hne hrun hbehind hruns
  | @cons before run behind rs hbefore hne hrun hbehind _ ih =>
    rw [List.append_assoc]
    rcases eq_or_ne behind [] with rfl | hmore
    · -- the first run ends the first text, so the second one has to start with another kind
      have hstart : ∀ c ∈ cs'.head?, kind c = false := by
        refine hcut.resolve_left fun hlast => ?_
        have hmem := List.getLast_mem hne
        have hother := hlast (run.getLast hne) (by simp [List.getLast?_eq_some_getLast hne])
        exact Bool.false_ne_true (hother.symm.trans (hrun _ hmem))
      exact .cons hbefore hne hrun hstart (ih (.inr hstart))
    · have hhead : (behind ++ cs').head? = behind.head? := List.head?_append_of_ne_nil _ hmore
      have hlast : (before ++ run ++ behind).getLast? = behind.getLast? :=
        List.getLast?_append_of_ne_nil _ hmore
      exact .cons hbefore hne hrun (hhead ▸ hbehind) (ih (hlast ▸ hcut))

/-- The beginning of a text has at most as many runs as the text. -/
theorem HasRuns.length_le_of_prefix {before text : List Char} (h : HasRuns kind before rs)
    (h' : HasRuns kind text rs') (hpart : before <+: text) : rs.length ≤ rs'.length := by
  obtain ⟨more, rfl⟩ := hpart
  induction h generalizing rs' with
  | none => exact Nat.zero_le _
  | @cons before run behind rs hbefore hne hrun hbehind hruns ih =>
    rcases eq_or_ne behind [] with rfl | hmore
    · obtain rfl : rs = [] := hruns.unique (.none nofun)
      obtain ⟨c, hc⟩ := List.exists_mem_of_ne_nil run hne
      exact List.length_pos_iff.mpr (h'.ne_nil (c := c) (by simp [hc]) (hrun c hc))
    · have hhead : (behind ++ more).head? = behind.head? := List.head?_append_of_ne_nil _ hmore
      obtain ⟨rs'', hrs''⟩ := exists_hasRuns kind (behind ++ more)
      rw [List.append_assoc] at h'
      rw [h'.unique (.cons hbefore hne hrun (hhead ▸ hbehind) hrs'')]
      exact Nat.succ_le_succ (ih hrs'')

end Piecework
