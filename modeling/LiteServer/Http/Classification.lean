import LiteServer.Http.Routes

/-!
# The class of a route

`classify_http_path` looks at the text of a path: what is not on a short list of probes, not a path
of inference under `/v2/models/` and not under `/v1/` is for administrators. The table of routes is
somewhere else, and a path under `/v2/models/` that the classification does not know counts as
inference, since it may be a route of the model. So every route under `/v2/models/` that changes
something has to be known to it, whatever the model and the version are called.

A path that a template matches has the literals of the template, and those decide its class
(`classify_of_admin`, `classify_of_inference`); the rest is a look at the table.

## Main results

* `classify_routes` — the routes that change something are for administrators, those of inference
  are not
-/

namespace LiteServer.Http

open Segment (matchSegments)

/-- The segments of a path. -/
def pathSegments (path : Text) : List Text := (path.drop 1).splitOn '/'

/-- The route matches the path. -/
def InstanceRoute.Matches (route : InstanceRoute) (path : Text) : Prop :=
  path.head? = some '/' ∧ (matchSegments route.template (pathSegments path)).isSome = true

/-- The method of a handler that changes something. -/
def Method.changes : Method → Bool
  | .post | .put | .patch | .delete => true
  | _ => false

/-- The handlers that run a model, and the `/v1` endpoints. -/
def Action.isServed (a : Action) : Bool := a.isInference || a = .v1Models || a = .v1ModelRetrieve

/-! ### Segments of the text -/

theorem splitOn_append_slash (a rest : Text) (h : '/' ∉ a) :
    (a ++ '/' :: rest).splitOn '/' = a :: rest.splitOn '/' := by
  rw [List.splitOn_append_cons_self_of_not_mem h]

theorem pathSegments_models (rest : Text) :
    pathSegments ("/v2/models/".toList ++ rest) =
      "v2".toList :: "models".toList :: rest.splitOn '/' := by
  have h : ("/v2/models/".toList ++ rest).drop 1 =
      "v2".toList ++ '/' :: ("models".toList ++ '/' :: rest) := rfl
  rw [pathSegments, h, splitOn_append_slash _ _ (by decide), splitOn_append_slash _ _ (by decide)]

theorem path_eq {path : Text} (h : path.head? = some '/') :
    path = '/' :: List.intercalate ['/'] (pathSegments path) := by
  cases path with
  | nil => cases h
  | cons c path =>
    obtain rfl : c = '/' := by simpa using h
    rw [pathSegments, List.drop_one, List.tail_cons, List.intercalate_splitOn]

/-- A path under `/v2/models/` with a name behind. -/
theorem exists_models {path model : Text} {segs : List Text} (hslash : path.head? = some '/')
    (h : pathSegments path = "v2".toList :: "models".toList :: model :: segs) :
    ∃ rest, "/v2/models/".toList.isPrefixOf? path = some rest ∧
      rest.splitOn '/' = model :: segs := by
  have hpath : path = "/v2/models/".toList ++ List.intercalate ['/'] (model :: segs) := by
    rw [path_eq hslash, h]
    rfl
  refine ⟨_, List.isPrefixOf?_eq_some_iff_append_eq.mpr hpath.symm, ?_⟩
  rw [hpath, pathSegments_models] at h
  simpa using h

/-- What is read out of the segments behind the name. -/
theorem target_models {path model : Text} {segs : List Text} (hslash : path.head? = some '/') :
    pathSegments path = "v2".toList :: "models".toList :: model :: segs → model ≠ [] →
    accessLogTarget path =
      match segs with
      | [] => none
      | [leaf] =>
        if leaf ∈ inferenceLeaves then some (model, none)
        else if leaf = versionsText ∨ leaf ∈ adminLeaves then none
        else some (model, none)
      | [first, version, leaf] =>
        if first = versionsText then
          if leaf ∈ inferenceLeaves ∧ version ≠ [] then some (model, some version) else none
        else some (model, none)
      | first :: _ => if first = versionsText then none else some (model, none) := by
  intro h hmodel
  obtain ⟨rest, hprefix, hsplit⟩ := exists_models hslash h
  rw [accessLogTarget, hprefix, Option.bind_some, hsplit]
  exact if_neg hmodel

/-- A path elsewhere. -/
theorem not_models {path : Text} (h : ∀ segs, pathSegments path ≠
    "v2".toList :: "models".toList :: segs) : accessLogTarget path = none := by
  rw [accessLogTarget]
  cases hprefix : "/v2/models/".toList.isPrefixOf? path with
  | none => rfl
  | some rest =>
    have hpath := List.isPrefixOf?_eq_some_iff_append_eq.mp hprefix
    exact absurd (hpath ▸ pathSegments_models rest) (h _)

theorem not_health {path : Text} {segs : List Text} (h : pathSegments path = segs)
    (hsegs : segs ∉ healthPaths.map pathSegments) : path ∉ healthPaths :=
  fun hmem => hsegs (h ▸ List.mem_map_of_mem hmem)

/-- A path under `/v2/`. -/
theorem classify_v2 {path area : Text} {segs : List Text} (hslash : path.head? = some '/')
    (h : pathSegments path = "v2".toList :: area :: segs) (harea : area ≠ "health".toList) :
    classifyHttpPath path =
      if (accessLogTarget path).isSome then .inference else .admin := by
  have hhealth : path ∉ healthPaths := by
    refine not_health h ?_
    intro hmem
    -- every probe is one word, or it is under `/v2/health/`
    have hsecond : ∀ probe ∈ healthPaths.map pathSegments,
        probe.tail.head? = none ∨ probe.tail.head? = some "health".toList := by
      decide
    rcases hsecond _ hmem with hnone | hsome
    · cases hnone
    · exact harea (Option.some.inj hsome)
  have hv1 : "/v1/".toList.isPrefixOf path = false := by
    rw [path_eq hslash, h]
    rfl
  rw [classifyHttpPath, if_neg hhealth, hv1]
  rfl

/-- A path under `/v1/`. -/
theorem classify_v1 {path second : Text} {segs : List Text} (hslash : path.head? = some '/')
    (h : pathSegments path = "v1".toList :: second :: segs) :
    classifyHttpPath path = .inference := by
  have hhealth : path ∉ healthPaths := by
    refine not_health h fun hmem => ?_
    have hheads : ∀ probe ∈ healthPaths.map pathSegments, probe.head? ≠ some "v1".toList := by
      decide
    exact hheads _ hmem rfl
  have hv1 : "/v1/".toList.isPrefixOf path = true := by
    rw [path_eq hslash, h]
    rfl
  rw [classifyHttpPath, if_neg hhealth, hv1]
  exact ite_self _

/-! ### Templates -/

section

variable {segs : List Text} {template : List Segment} {text : Text}

theorem matched_nil : (matchSegments [] segs).isSome = true ↔ segs = [] := by
  cases segs <;> simp [matchSegments]

theorem matched_lit : (matchSegments (.lit text :: template) segs).isSome = true ↔
    ∃ rest, segs = text :: rest ∧ (matchSegments template rest).isSome = true := by
  cases segs with
  | nil => simp [matchSegments]
  | cons x xs =>
    rw [matchSegments]
    by_cases h : x = text
    · simp [h]
    · simp [h]

theorem matched_param : (matchSegments (.param :: template) segs).isSome = true ↔
    ∃ x rest, segs = x :: rest ∧ x ≠ [] ∧ (matchSegments template rest).isSome = true := by
  cases segs with
  | nil => simp [matchSegments]
  | cons x xs =>
    rw [matchSegments]
    by_cases h : x = []
    · simp [h]
    · simp [h]

end

/-- The literals of a template that is for administrators. -/
def isAdminTemplate : List Segment → Bool
  | .lit v2 :: .lit area :: rest =>
    v2 = "v2".toList && (area = "repository".toList || area = "models".toList &&
      match rest with
      | [.param] => true
      | [.param, .lit leaf] => leaf ∉ inferenceLeaves && (leaf = versionsText || leaf ∈ adminLeaves)
      | [.param, .lit first, .param] => first = versionsText
      | [.param, .lit first, .param, .lit leaf] => first = versionsText && leaf ∉ inferenceLeaves
      | _ => false)
  | _ => false

/-- The literals of a template that is for inference. -/
def isInferenceTemplate : List Segment → Bool
  | .lit v :: .lit second :: rest =>
    v = "v1".toList || v = "v2".toList && second = "models".toList &&
      match rest with
      | [.param, .lit leaf] => leaf ∈ inferenceLeaves
      | [.param, .lit first, .param, .lit leaf] => first = versionsText && leaf ∈ inferenceLeaves
      | _ => false
  | _ => false

theorem classify_of_admin {template : List Segment} {path : Text}
    (h : isAdminTemplate template = true) (hslash : path.head? = some '/')
    (hmatch : (matchSegments template (pathSegments path)).isSome = true) :
    classifyHttpPath path = .admin := by
  unfold isAdminTemplate at h
  split at h
  · rename_i v2 area rest
    simp only [Bool.and_eq_true, Bool.or_eq_true, decide_eq_true_eq] at h
    obtain ⟨rfl, h⟩ := h
    obtain ⟨_, hsegs, hmatch⟩ := matched_lit.mp hmatch
    obtain ⟨segs, rfl, hrest⟩ := matched_lit.mp hmatch
    rcases h with rfl | ⟨rfl, h⟩
    · -- not under `/v2/models/`
      have hnone : accessLogTarget path = none := by
        refine not_models fun segs' hsegs' => ?_
        rw [hsegs] at hsegs'
        exact absurd (List.cons.inj (List.cons.inj hsegs').2).1 (by decide)
      rw [classify_v2 hslash hsegs (by decide), hnone]
      rfl
    · rw [classify_v2 hslash hsegs (by decide)]
      have hnone : accessLogTarget path = none := by
        split at h
        · simp only [matched_param, matched_nil] at hrest
          obtain ⟨model, _, rfl, hmodel, rfl⟩ := hrest
          rw [target_models hslash hsegs hmodel]
        · simp only [matched_param, matched_lit, matched_nil] at hrest
          obtain ⟨model, _, rfl, hmodel, _, rfl, rfl⟩ := hrest
          simp only [Bool.and_eq_true, decide_eq_true_eq, Bool.or_eq_true] at h
          rw [target_models hslash hsegs hmodel]
          exact (if_neg h.1).trans (if_pos h.2)
        · simp only [matched_param, matched_lit, matched_nil] at hrest
          obtain ⟨model, _, rfl, hmodel, _, rfl, _, _, rfl, _, rfl⟩ := hrest
          rw [target_models hslash hsegs hmodel]
          exact if_pos (of_decide_eq_true h)
        · simp only [matched_param, matched_lit, matched_nil] at hrest
          obtain ⟨model, _, rfl, hmodel, _, rfl, _, _, rfl, _, _, rfl, rfl⟩ := hrest
          simp only [Bool.and_eq_true, decide_eq_true_eq] at h
          rw [target_models hslash hsegs hmodel]
          exact (if_pos h.1).trans (if_neg fun hleaf => h.2 hleaf.1)
        · cases h
      rw [hnone]
      rfl
  · cases h

theorem classify_of_inference {template : List Segment} {path : Text}
    (h : isInferenceTemplate template = true) (hslash : path.head? = some '/')
    (hmatch : (matchSegments template (pathSegments path)).isSome = true) :
    classifyHttpPath path = .inference := by
  unfold isInferenceTemplate at h
  split at h
  · rename_i v second rest
    obtain ⟨_, hsegs, hmatch⟩ := matched_lit.mp hmatch
    obtain ⟨segs, rfl, hrest⟩ := matched_lit.mp hmatch
    simp only [Bool.or_eq_true, Bool.and_eq_true, decide_eq_true_eq] at h
    rcases h with rfl | ⟨⟨rfl, rfl⟩, h⟩
    · exact classify_v1 hslash hsegs
    · rw [classify_v2 hslash hsegs (by decide)]
      have hsome : (accessLogTarget path).isSome = true := by
        split at h
        · simp only [matched_param, matched_lit, matched_nil] at hrest
          obtain ⟨model, _, rfl, hmodel, _, rfl, rfl⟩ := hrest
          rw [target_models hslash hsegs hmodel]
          simp only [if_pos (of_decide_eq_true h), Option.isSome_some]
        · simp only [matched_param, matched_lit, matched_nil] at hrest
          obtain ⟨model, _, rfl, hmodel, _, rfl, _, _, rfl, hversion, _, rfl, rfl⟩ := hrest
          simp only [Bool.and_eq_true, decide_eq_true_eq] at h
          rw [target_models hslash hsegs hmodel]
          simp only [if_pos h.1, if_pos (And.intro h.2 hversion), Option.isSome_some]
        · cases h
      rw [if_pos hsome]
  · cases h

/-! ### The table -/

theorem adminTemplate_of_changes : ∀ route ∈ allRoutes, route.method.changes = true →
    route.action.isServed = false → isAdminTemplate route.template = true := by
  decide

theorem inferenceTemplate_of_served : ∀ route ∈ allRoutes, route.action.isServed = true →
    isInferenceTemplate route.template = true := by
  decide

/-- A path with a route that changes something is for administrators, and a path with a route of
inference is for inference. -/
theorem classify_routes (features : Features) (path : Text) (route : InstanceRoute)
    (hroute : route ∈ createRoutes features) (hmatch : route.Matches path) :
    (route.method.changes = true → route.action.isServed = false →
      classifyHttpPath path = .admin) ∧
    (route.action.isServed = true → classifyHttpPath path = .inference) :=
  have hmem := mem_allRoutes hroute
  ⟨fun hchanges hserved =>
    classify_of_admin (adminTemplate_of_changes route hmem hchanges hserved) hmatch.1 hmatch.2,
    fun hserved =>
      classify_of_inference (inferenceTemplate_of_served route hmem hserved) hmatch.1 hmatch.2⟩

/-- The model is called `infer`, the version `events`. -/
theorem classify_reload_version :
    classifyHttpPath "/v2/models/infer/versions/events/reload".toList = .admin :=
  (classify_routes ⟨true, true, true, true, true, true, true, true, true⟩
    "/v2/models/infer/versions/events/reload".toList
    ⟨versionPath [word "reload"], .post, .reloadVersion⟩ (by decide)
    ⟨by decide, by decide⟩).1 rfl rfl

end LiteServer.Http
