import LiteServer.Ensemble.Schedule
import Mathlib.Order.Bounds.Basic

/-!
# The two loops over the dependency graph

`validateDag` and `topologicalLayers` both run Kahn's algorithm on step names, over hash maps that
are walked in any order. This file states what they compute in terms of the steps themselves: a
step refers to another when one of its inputs names it, and the two loops decide whether these
references form a cycle, and how long the chains of references below each step are.

Every reference of an accepted list names a step of the list, and names are distinct, so paths
between steps and paths between their names are the same (`exists_refersTo`,
`RefersTo.dep`); the rest is `Kahn.visit_spec` and `Kahn.Peeled.isGreatest`.

## Main results

* `validateDag_accepts_iff` — `validateDag` accepts exactly the well-formed lists without a cycle,
  and never panics
* `topologicalLayers_by_depth` — the layers of an accepted list partition it by depth
-/

namespace LiteServer

namespace Ensemble

open Checks

/-- `s` has a reference to the step `t` of the list. -/
def RefersTo (E : Externals) (steps : List EnsembleStep) (s t : EnsembleStep) : Prop :=
  t ∈ steps ∧ t.name ∈ stepSources E s

section

variable {E : Externals} {steps : List EnsembleStep} {s t : EnsembleStep}

theorem RefersTo.dep (h : RefersTo E steps s t) (hs : s ∈ steps) :
    (depGraph E steps).Dep s.name t.name :=
  mem_dependencies.mpr ⟨s, hs, rfl, h.2⟩

theorem DagRules.name_inj (h : DagRules E steps) (hs : s ∈ steps) (ht : t ∈ steps)
    (hname : s.name = t.name) : s = t :=
  List.inj_on_of_nodup_map h.nodup hs ht hname

variable {name : String}

theorem DagRules.mem_stepSources_of_dep (h : DagRules E steps) (hs : s ∈ steps)
    (hdep : (depGraph E steps).Dep s.name name) : name ∈ stepSources E s := by
  obtain ⟨s', hs', hname, hsource⟩ := mem_dependencies.mp hdep
  rwa [h.name_inj hs' hs hname] at hsource

theorem DagRules.exists_refersTo (h : DagRules E steps) (hs : s ∈ steps)
    (hdep : (depGraph E steps).Dep s.name name) : ∃ t, t.name = name ∧ RefersTo E steps s t := by
  obtain ⟨t, ht, rfl⟩ := List.mem_map.mp (h.dependency_mem hdep)
  exact ⟨t, rfl, ht, h.mem_stepSources_of_dep hs hdep⟩

/-! ### Cycles -/

theorem transGen_dep (hs : s ∈ steps) (h : Relation.TransGen (RefersTo E steps) s t) :
    t ∈ steps ∧ Relation.TransGen (depGraph E steps).Dep s.name t.name := by
  induction h with
  | single ht => exact ⟨ht.1, .single (ht.dep hs)⟩
  | tail _ ht ih => exact ⟨ht.1, .tail ih.2 (ht.dep ih.1)⟩

theorem DagRules.transGen_refersTo (h : DagRules E steps) (hs : s ∈ steps)
    (hdep : Relation.TransGen (depGraph E steps).Dep s.name name) :
    ∃ t, t.name = name ∧ t ∈ steps ∧ Relation.TransGen (RefersTo E steps) s t := by
  induction hdep with
  | single hdep =>
    obtain ⟨t, hname, ht⟩ := h.exists_refersTo hs hdep
    exact ⟨t, hname, ht.1, .single ht⟩
  | tail _ hdep ih =>
    obtain ⟨t, rfl, ht, hpath⟩ := ih
    obtain ⟨u, hname, hu⟩ := h.exists_refersTo ht hdep
    exact ⟨u, hname, hu.1, .tail hpath hu⟩

theorem DagRules.acyclic_iff (h : DagRules E steps) : (depGraph E steps).Acyclic ↔
    ∀ s ∈ steps, ¬ Relation.TransGen (RefersTo E steps) s s := by
  rw [Kahn.Graph.acyclic_iff h.closed, h.nodes, List.forall_mem_map]
  refine forall₂_congr fun s hs => not_congr ⟨fun hcycle => ?_, fun hcycle => ?_⟩
  · obtain ⟨t, hname, ht, hpath⟩ := h.transGen_refersTo hs hcycle
    rwa [h.name_inj ht hs hname] at hpath
  · exact (transGen_dep hs hcycle).2

variable (E steps) in
/-- The steps form a DAG: the rules on names and references, and no step refers to itself, be it
through others. -/
structure WellFormedDag : Prop extends DagRules E steps where
  acyclic : ∀ s ∈ steps, ¬ Relation.TransGen (RefersTo E steps) s s

variable {names : List String}

theorem checkStepRefs_errors :
    ErrorsIn AppError.IsConfig (checkStepRefs E names s) :=
  .forM fun _ _ => .bind (.okOr fun _ => ⟨_, rfl⟩) fun _ _ => .rejectIf ⟨_, rfl⟩

/-- The counters of the cycle check stay above zero: what `validateDag` stops with is an error of
the configuration. -/
theorem validateDag_errors (order : IterOrder String) :
    ErrorsIn AppError.IsConfig (validateDag E order steps) := by
  refine .bind (.rejectIf ⟨_, rfl⟩) fun _ hempty => ?_
  refine .bind (.rejectIf ⟨_, rfl⟩) fun _ hlen => ?_
  refine .bind (.forM fun _ _ => .rejectIf ⟨_, rfl⟩) fun _ hname => ?_
  refine .bind (.forM fun _ _ => checkStepRefs_errors) fun _ hrefs => ?_
  have hrules : DagRules E steps := dagRules_iff.mpr
    ⟨rejectIf_eq_ok.mp hempty, by simpa using rejectIf_eq_ok.mp hlen,
      fun s hs => rejectIf_eq_ok.mp (forM_eq_ok.mp hname s hs), forM_eq_ok.mp hrefs⟩
  obtain ⟨k, hk, -⟩ := hrules.visit E order
  refine .bind (.okOr fun hnone => ?_) fun _ _ => .rejectIf ⟨_, rfl⟩
  exact absurd (hk.symm.trans hnone) (Option.some_ne_none k)

/-- **`validateDag` accepts exactly the DAGs, and its counters never go below zero.** -/
theorem validateDag_accepts_iff (E : Externals) (order : IterOrder String)
    (steps : List EnsembleStep) :
    (validateDag E order steps = .ok () ↔ WellFormedDag E steps) ∧
      ∀ msg, validateDag E order steps ≠ .error (.panicked msg) := by
  refine ⟨validateDag_eq_ok.trans ⟨?_, ?_⟩, fun msg hmsg => ?_⟩
  · rintro ⟨hrules, hacyclic⟩
    exact ⟨hrules, hrules.acyclic_iff.mp hacyclic⟩
  · rintro ⟨hrules, hacyclic⟩
    exact ⟨hrules, hrules.acyclic_iff.mpr hacyclic⟩
  · obtain ⟨_, heq⟩ := validateDag_errors order _ hmsg
    cases heq

/-! ### Paths -/

theorem isChain_names {path : List EnsembleStep} (hs : s ∈ steps)
    (h : List.IsChain (RefersTo E steps) (s :: path)) :
    List.IsChain (depGraph E steps).Dep (s.name :: path.map (·.name)) := by
  induction path generalizing s with
  | nil => exact .singleton _
  | cons t path ih =>
    obtain ⟨ht, hpath⟩ := List.isChain_cons_cons.mp h
    exact .cons_cons (ht.dep hs) (ih ht.1 hpath)

theorem DagRules.isChain_steps (h : DagRules E steps) (hs : s ∈ steps)
    (hpath : List.IsChain (depGraph E steps).Dep (s.name :: names)) :
    ∃ path, List.IsChain (RefersTo E steps) (s :: path) ∧ path.length = names.length := by
  induction names generalizing s with
  | nil => exact ⟨[], .singleton _, rfl⟩
  | cons name names ih =>
    obtain ⟨hname, hrest⟩ := List.isChain_cons_cons.mp hpath
    obtain ⟨t, rfl, ht⟩ := h.exists_refersTo hs hname
    obtain ⟨path, hchain, hlen⟩ := ih ht.1 hrest
    exact ⟨t :: path, .cons_cons ht hchain, by rw [List.length_cons, hlen, List.length_cons]⟩

variable (E steps) in
/-- The lengths of the paths of references that start at a step. -/
def pathLengths (s : EnsembleStep) : Set ℕ :=
  {n | ∃ path, List.IsChain (RefersTo E steps) (s :: path) ∧ path.length = n}

theorem DagRules.pathLengths_eq (h : DagRules E steps) (hs : s ∈ steps) : pathLengths E steps s =
    {n | ∃ names, List.IsChain (depGraph E steps).Dep (s.name :: names) ∧ names.length = n} := by
  ext n
  constructor
  · rintro ⟨path, hpath, rfl⟩
    exact ⟨path.map (·.name), isChain_names hs hpath, List.length_map _⟩
  · rintro ⟨names, hnames, rfl⟩
    exact h.isChain_steps hs hnames

theorem pathLengths_cons (h : RefersTo E steps s t) {n : ℕ} (hn : n ∈ pathLengths E steps t) :
    n + 1 ∈ pathLengths E steps s := by
  obtain ⟨path, hpath, rfl⟩ := hn
  exact ⟨t :: path, .cons_cons h hpath, List.length_cons⟩

/-! ### Layers -/

theorem DagRules.findStep_eq_some (h : DagRules E steps) :
    findStep steps name = some s ↔ s ∈ steps ∧ s.name = name := by
  constructor
  · intro hfind
    exact ⟨List.mem_of_find?_eq_some hfind, by simpa using List.find?_some hfind⟩
  · rintro ⟨hs, rfl⟩
    cases hfind : findStep steps s.name with
    | none =>
      have hne := List.find?_eq_none.mp hfind s hs
      simp at hne
    | some t =>
      have hname : t.name = s.name := by simpa using List.find?_some hfind
      rw [h.name_inj (List.mem_of_find?_eq_some hfind) hs hname]

theorem DagRules.filterMap_findStep (h : DagRules E steps) :
    (steps.map (·.name)).filterMap (findStep steps) = steps := by
  rw [List.filterMap_map]
  calc steps.filterMap (findStep steps ∘ (·.name))
    _ = steps.filterMap some :=
        List.filterMap_congr fun s hs => h.findStep_eq_some.mpr ⟨hs, rfl⟩
    _ = steps := List.filterMap_some

/-- The step is in the layer at `i`. -/
def InLayer (layers : List (List EnsembleStep)) (i : ℕ) (s : EnsembleStep) : Prop :=
  ∃ layer, layers[i]? = some layer ∧ s ∈ layer

variable (E steps) in
/-- The layers partition the steps, and the index of the layer of a step is the length of the
longest path of references below it. -/
structure LayersByDepth (layers : List (List EnsembleStep)) : Prop where
  perm : layers.flatten.Perm steps
  existsUnique : ∀ s ∈ steps, ∃! i, InLayer layers i s
  depth : ∀ i s, InLayer layers i s → IsGreatest (pathLengths E steps s) i
  first : ∀ i s, InLayer layers i s → (i = 0 ↔ stepSources E s = [])
  earlier : ∀ i s, InLayer layers i s → ∀ source ∈ stepSources E s,
    ∃ j < i, ∃ t, InLayer layers j t ∧ t.name = source

/-- The other fields follow from the partition and the depth. -/
theorem DagRules.layersByDepth (h : DagRules E steps) {layers : List (List EnsembleStep)}
    (hperm : layers.flatten.Perm steps)
    (hdepth : ∀ i s, InLayer layers i s → IsGreatest (pathLengths E steps s) i) :
    LayersByDepth E steps layers := by
  have hlayer : ∀ s ∈ steps, ∃ i, InLayer layers i s := by
    intro s hs
    obtain ⟨layer, hmem, hsl⟩ := List.mem_flatten.mp (hperm.mem_iff.mpr hs)
    obtain ⟨i, hi⟩ := List.getElem?_of_mem hmem
    exact ⟨i, layer, hi, hsl⟩
  have hearlier : ∀ i s, InLayer layers i s → ∀ source ∈ stepSources E s,
      ∃ j < i, ∃ t, InLayer layers j t ∧ t.name = source := by
    intro i s hs source hsource
    obtain ⟨layer, hi, hsl⟩ := hs
    have hmem : s ∈ steps :=
      hperm.mem_iff.mp (List.mem_flatten.mpr ⟨layer, List.mem_of_getElem? hi, hsl⟩)
    obtain ⟨t, hname, ht⟩ := h.exists_refersTo hmem
      (mem_dependencies.mpr ⟨s, hmem, rfl, hsource⟩)
    obtain ⟨j, hj⟩ := hlayer t ht.1
    -- a longest path below `t`, with the reference to `t` in front
    have hle := (hdepth i s ⟨layer, hi, hsl⟩).2 (pathLengths_cons ht (hdepth j t hj).1)
    exact ⟨j, hle, t, hj, hname⟩
  refine ⟨hperm, fun s hs => ?_, hdepth, fun i s hs => ⟨?_, ?_⟩, hearlier⟩
  · obtain ⟨i, hi⟩ := hlayer s hs
    exact ⟨i, hi, fun j hj => (hdepth j s hj).unique (hdepth i s hi)⟩
  · rintro rfl
    refine List.eq_nil_iff_forall_not_mem.mpr fun source hsource => ?_
    obtain ⟨j, hj, -⟩ := hearlier 0 s hs source hsource
    exact absurd hj (Nat.not_lt_zero j)
  · intro hnil
    obtain ⟨path, hpath, hlen⟩ := (hdepth i s hs).1
    cases path with
    | nil => exact hlen.symm
    | cons t path =>
      have hsource := (List.isChain_cons_cons.mp hpath).1.2
      rw [hnil] at hsource
      exact absurd hsource List.not_mem_nil

end

/-- **`topologicalLayers` sorts the steps of an accepted list by depth**, whatever the orders the
hash containers are walked in. -/
theorem topologicalLayers_by_depth {E : Externals} {order : IterOrder String}
    {steps : List EnsembleStep} (h : validateDag E order steps = .ok ())
    (order' : IterOrder String) (round : ℕ) :
    ∃ layers, topologicalLayers E order' round steps = .ok layers ∧
      LayersByDepth E steps layers := by
  obtain ⟨hrules, hacyclic⟩ := validateDag_eq_ok.mp h
  obtain ⟨names, hpeel, hpeeled⟩ := Kahn.peel_spec hacyclic hrules.closed order' round
  refine ⟨names.map (·.filterMap (findStep steps)), ?_, hrules.layersByDepth ?_ ?_⟩
  · rw [topologicalLayers, hpeel]
    rfl
  · have hperm := hpeeled.layering.perm.filterMap (findStep steps)
    rwa [hrules.nodes, hrules.filterMap_findStep, List.filterMap_flatten] at hperm
  · rintro i s ⟨layer, hi, hs⟩
    rw [List.getElem?_map, Option.map_eq_some_iff] at hi
    obtain ⟨nameLayer, hi, rfl⟩ := hi
    obtain ⟨name, hname, hfind⟩ := List.mem_filterMap.mp hs
    obtain ⟨hmem, rfl⟩ := hrules.findStep_eq_some.mp hfind
    rw [hrules.pathLengths_eq hmem]
    exact hpeeled.isGreatest hrules.closed hi hname

/-- A step that only reads the references `refs`. -/
def readingStep (name : String) (refs : IndexMap String String) : EnsembleStep where
  name := name
  model := "m"
  version := none
  inputs := refs
  stream := false
  forwardHeaders := []
  passthrough := false
  params := .empty
  timeoutSecs := none
  onError := .fail
  retries := 0
  outputsDecl := none
  when := none

/-- `c` reads `b` twice and `a`, and `b` reads `a`. -/
def threeSteps : List EnsembleStep :=
  [readingStep "c" (((IndexMap.empty.insert "x" "$a").insert "y" "$b").insert "z" "$b.out"),
    readingStep "a" (IndexMap.empty.insert "x" "$request"),
    readingStep "b" (IndexMap.empty.insert "x" "$a")]

theorem threeSteps_by_depth : ∃ layers,
    topologicalLayers plainExternals .listed 0 threeSteps = .ok layers ∧
      LayersByDepth plainExternals threeSteps layers :=
  have h : validateDag plainExternals .listed threeSteps = .ok () := rfl
  topologicalLayers_by_depth h .listed 0

end Ensemble

end LiteServer
