import Piecework.Http.Api

/-!
# Where requests lead

The segments of a path give the path back when they are put together, so a path follows from
the names along it. Tasks are therefore at one path and expressions are submitted at one path,
and nothing else leads there.
-/

namespace Piecework.Http

/-- Cutting at a separator is splitting on it. -/
theorem splitAt_eq_splitOn (separator : Char) (cs : List Char) :
    splitAt separator cs = cs.splitOn separator := by
  induction cs with
  | nil => rfl
  | cons c cs ih =>
    rw [splitAt, ih, List.splitOn, List.splitOn, List.splitOnP_cons_eq_if_modifyHead]
    by_cases hc : c = separator
    · simp [hc]
    · cases hparts : cs.splitOnP (· == separator) with
      | nil => exact absurd hparts (List.splitOnP_ne_nil _ _)
      | cons p ps => simp [hc]

/-- The segments of a path say what the path is. -/
theorem path_of_segments {t : Target} {segments : List (List Char)} {names : List String}
    (h : t.segments? = some segments) (hnames : segments.map String.ofList = names) :
    t.path = '/' :: ['/'].intercalate (names.map String.toList) := by
  unfold Target.segments? at h
  split at h
  · next rest hpath =>
    obtain rfl := Option.some.inj h
    subst hnames
    simp [hpath, Function.comp_def, splitAt_eq_splitOn, List.intercalate_splitOn]
  · contradiction

/-- The names along the path of a resource. -/
def Resource.names : Resource → List String
  | calculate => ["api", "v1", "calculate"]
  | expressions => ["api", "v1", "expressions"]
  | expression segment => ["api", "v1", "expressions", .ofList segment]
  | task => ["internal", "task"]
  | health => ["health"]

/-- A target leads to a resource along the names of its path. -/
theorem exists_names_of_resource? {t : Target} {res : Resource} (h : resource? t = some res) :
    ∃ segments, t.segments? = some segments ∧ segments.map String.ofList = res.names := by
  unfold resource? at h
  split at h
  · contradiction
  · next segments hsegments =>
    refine ⟨segments, hsegments, ?_⟩
    split at h
    · next hnames => exact Option.some.inj h ▸ hnames
    · next hnames => exact Option.some.inj h ▸ hnames
    · next s hnames =>
      split at h
      · contradiction
      · obtain rfl := Option.some.inj h
        rw [hnames, Resource.names, String.ofList_toList]
    · next hnames => exact Option.some.inj h ▸ hnames
    · next hnames => exact Option.some.inj h ▸ hnames
    · contradiction

/-- A resource is at the path along its names. -/
theorem path_of_resource? {t : Target} {res : Resource} (h : resource? t = some res) :
    t.path = '/' :: ['/'].intercalate (res.names.map String.toList) := by
  obtain ⟨segments, hsegments, hnames⟩ := exists_names_of_resource? h
  exact path_of_segments hsegments hnames

/-- The tasks are at one path, whatever the query is. -/
theorem resource?_eq_task_iff {t : Target} :
    resource? t = some .task ↔ t.path = "/internal/task".toList := by
  refine ⟨fun h => path_of_resource? h, fun h => ?_⟩
  rw [resource?, Target.segments?, h]
  rfl

/-- Expressions are submitted at one path, whatever the query is. -/
theorem resource?_eq_calculate_iff {t : Target} :
    resource? t = some .calculate ↔ t.path = "/api/v1/calculate".toList := by
  refine ⟨fun h => path_of_resource? h, fun h => ?_⟩
  rw [resource?, Target.segments?, h]
  rfl

end Piecework.Http
