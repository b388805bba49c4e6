import LiteServer.Ensemble.Exec
import LiteServer.Ensemble.Loaded
import LiteServer.Lib.Layers

/-!
# The schedule of a plan

What the loader leaves behind for the executor to run by: the layers of a plan put every step after
the steps it refers to, and a chain of streaming steps is a line, each of its steps referred to by
the next one only. From that, the layers a call runs in each of its forms are still a schedule: the
layers of a unary DAG, the layers before the tail, and the layers without the chain.

## Main results

* `Loaded.layers_perm`, `Loaded.layered` — the layers list every step once, after its references
* `Loaded.chainOk` — every step of a chain is referred to by its successor only
* `Loaded.runLayered`, `Loaded.tail_refs`, `Loaded.chain_refs` — the same for what a call runs
* `Loaded.callOrder_perm` — a unary call and a pipeline schedule every step once
-/

namespace LiteServer

namespace Ensemble

open Checks

/-! ### Names and positions -/

section

variable {steps : List EnsembleStep}

variable {i : ℕ} {name : String}

theorem position_eq_some (h : position steps name = some i) :
    ∃ step, steps[i]? = some step ∧ step.name = name := by
  obtain ⟨hi, hname, -⟩ := List.findIdx?_eq_some_iff_getElem.mp h
  exact ⟨steps[i], List.getElem?_eq_getElem hi, by simpa using hname⟩

theorem position_lt (h : position steps name = some i) : i < steps.length :=
  (List.findIdx?_eq_some_iff_getElem.mp h).1

theorem position_of_getElem? (hnodup : (steps.map (·.name)).Nodup) {step : EnsembleStep}
    (h : steps[i]? = some step) : position steps step.name = some i := by
  obtain ⟨hi, rfl⟩ := List.getElem?_eq_some_iff.mp h
  refine List.findIdx?_eq_some_iff_getElem.mpr ⟨hi, by simp, fun j hj => ?_⟩
  have hne := List.pairwise_iff_getElem.mp hnodup j i (by simp; omega) (by simpa using hi) hj
  simpa using hne

/-- The positions of all names, in order. -/
theorem filterMap_position (hnodup : (steps.map (·.name)).Nodup) :
    (steps.map (·.name)).filterMap (position steps) = List.range steps.length := by
  have hmap : steps.map (fun s => position steps s.name) = (List.range steps.length).map some := by
    refine List.ext_getElem (by simp) fun i hi _ => ?_
    have hi' : i < steps.length := by simpa using hi
    simpa using position_of_getElem? hnodup (List.getElem?_eq_getElem hi')
  calc (steps.map (·.name)).filterMap (position steps)
    _ = (steps.map fun s => position steps s.name).filterMap id := by
        rw [List.filterMap_map, List.filterMap_map]
        rfl
    _ = List.range steps.length := by rw [hmap, List.filterMap_map]; simp

end

/-! ### References -/

/-- The step at `i` refers to the step at `j`. -/
def Refers (E : Externals) (steps : List EnsembleStep) (i j : ℕ) : Prop :=
  ∃ step, steps[i]? = some step ∧ ∃ source ∈ stepSources E step, position steps source = some j

instance (E : Externals) (steps : List EnsembleStep) (i j : ℕ) : Decidable (Refers E steps i j) :=
  decidable_of_iff ((steps[i]?).any (fun step =>
    (stepSources E step).any fun source => position steps source = some j) = true) (by
      simp [Refers, Option.any_eq_true])

section

variable {E : Externals} {steps : List EnsembleStep}

theorem Refers.lt {i j : ℕ} (h : Refers E steps i j) : j < steps.length := by
  obtain ⟨_, _, _, _, hj⟩ := h
  exact position_lt hj

/-- A reference between positions is a dependency between names. -/
theorem Refers.dependency {i j : ℕ} {name : String} (h : Refers E steps i j)
    (hname : position steps name = some i) :
    ∃ source, position steps source = some j ∧ source ∈ dependencies E steps name := by
  obtain ⟨step, hstep, source, hsource, hj⟩ := h
  obtain ⟨step', hstep', hname'⟩ := position_eq_some hname
  rw [hstep] at hstep'
  obtain rfl := Option.some.inj hstep'
  exact ⟨source, hj, mem_dependencies.mpr ⟨step, List.mem_of_getElem? hstep, hname', hsource⟩⟩

end

/-! ### Layers -/

section

variable {E : Externals} {order : IterOrder String} {plan : EnsemblePlan}

/-- The layers of names that the layers of a plan are the positions of. -/
theorem Loaded.nameLayers (h : Loaded E order plan) : ∃ layers : List (List String),
    Kahn.Layering (depGraph E plan.steps) (depGraph E plan.steps).nodes layers ∧
    plan.layers = layers.map (·.filterMap (position plan.steps)) := by
  obtain ⟨stepLayers, hlayers, hplan⟩ := h.layers
  simp only [topologicalLayers, bind_eq_ok, okOr_eq_ok, pure_eq_ok] at hlayers
  obtain ⟨layers, hpeel, rfl⟩ := hlayers
  obtain ⟨layers', hpeel', hpeeled⟩ :=
    Kahn.peel_spec h.acyclic h.dagRules.closed order (1 + plan.steps.length)
  obtain rfl := Option.some.inj (hpeel.symm.trans hpeel')
  refine ⟨layers, hpeeled.layering, ?_⟩
  rw [hplan, List.map_map]
  refine List.map_congr_left fun layer _ => ?_
  show (layer.filterMap (findStep plan.steps)).filterMap _ = _
  rw [List.filterMap_filterMap]
  refine List.filterMap_congr fun name _ => ?_
  cases hfind : findStep plan.steps name with
  | none =>
    have : position plan.steps name = none := by
      rw [position, List.findIdx?_eq_none_iff]
      simpa [findStep] using hfind
    rw [this]
    rfl
  | some step =>
    have hname : step.name = name := by simpa using List.find?_some hfind
    rw [Option.bind_some, hname]

/-- **The layers list every step once.** -/
theorem Loaded.layers_perm (h : Loaded E order plan) :
    plan.layers.flatten.Perm (List.range plan.steps.length) := by
  obtain ⟨layers, hlayering, hplan⟩ := h.nameLayers
  have hnodes : (depGraph E plan.steps).nodes = plan.steps.map (·.name) :=
    h.dagRules.nodup.dedup
  rw [hplan, ← filterMap_position h.dagRules.nodup, ← hnodes, ← List.filterMap_flatten]
  exact hlayering.perm.filterMap _

/-- **The layers respect the references.** -/
theorem Loaded.layered (h : Loaded E order plan) :
    Layered (Refers E plan.steps) (fun _ => False) plan.layers := by
  obtain ⟨layers, hlayering, hplan⟩ := h.nameLayers
  have hnames : Layered (fun v u => u ∈ dependencies E plan.steps v) (fun _ => False) layers := by
    refine layered_of_before fun pre layer post hsplit v hv u hu => .inr ?_
    exact hlayering.before pre layer post hsplit v hv u hu
      (List.mem_dedup.mpr (h.dagRules.dependency_mem hu))
  rw [hplan]
  exact hnames.filterMap (fun v i j hi hij => hij.dependency hi) fun _ _ _ hfalse => hfalse

end

/-! ### Chains -/

section

variable {E : Externals} {steps : List EnsembleStep}

variable {i j : ℕ} {field : Bool}

theorem mem_consumersOf :
    (i, field) ∈ consumersOf E steps j ↔
    ∃ step, steps[i]? = some step ∧ ∃ ref ∈ step.inputs.values, ∃ source rest,
      refCaptures E ref = some (source, rest) ∧ position steps source = some j ∧
      rest.isSome = field := by
  rw [consumersOf, List.mem_flatMap, Prod.exists]
  constructor
  · rintro ⟨step, k, hk, hrefs⟩
    obtain ⟨ref, href, hsource⟩ := List.mem_filterMap.mp hrefs
    obtain ⟨⟨source, rest⟩, hcap, hsource⟩ := Option.bind_eq_some_iff.mp hsource
    obtain ⟨hj, hif⟩ := Option.ite_none_right_eq_some.mp hsource
    obtain ⟨rfl, rfl⟩ := Prod.mk.inj (Option.some.inj hif)
    exact ⟨step, List.mem_zipIdx_iff_getElem?.mp hk, ref, href, source, rest, hcap, hj, rfl⟩
  · rintro ⟨step, hstep, ref, href, source, rest, hcap, hj, rfl⟩
    refine ⟨step, i, List.mem_zipIdx_iff_getElem?.mpr hstep, List.mem_filterMap.mpr ⟨ref, href, ?_⟩⟩
    rw [hcap]
    exact if_pos hj

theorem Refers.mem_consumersOf (h : Refers E steps i j) :
    ∃ field, (i, field) ∈ consumersOf E steps j := by
  obtain ⟨step, hstep, source, hsource, hj⟩ := h
  obtain ⟨⟨ref, href, hcap⟩, -⟩ := mem_stepSources.mp hsource
  obtain ⟨⟨name, rest⟩, hcap', rfl⟩ := Option.map_eq_some_iff.mp hcap
  exact ⟨_, Ensemble.mem_consumersOf.mpr ⟨step, hstep, ref, href, name, rest, hcap', hj, rfl⟩⟩

theorem DagRules.refers_of_mem_consumersOf (h : DagRules E steps)
    (hmem : (i, field) ∈ consumersOf E steps j) : Refers E steps i j := by
  obtain ⟨step, hstep, ref, href, source, rest, hcap, hj, -⟩ := mem_consumersOf.mp hmem
  obtain ⟨target, htarget, rfl⟩ := position_eq_some hj
  refine ⟨step, hstep, target.name, mem_stepSources.mpr ⟨⟨ref, href, ?_⟩, ?_⟩, hj⟩
  · rw [refSource, hcap, Option.map_some]
  · exact h.name_ne target (List.mem_of_getElem? htarget)

/-- The positions are ranked as the names of an acyclic graph are. -/
theorem DagRules.exists_rank (h : DagRules E steps) (hacyclic : (depGraph E steps).Acyclic) :
    ∃ rank : ℕ → ℕ, ∀ i j, Refers E steps i j → rank j < rank i := by
  obtain ⟨rank, hrank⟩ := hacyclic
  refine ⟨fun i => rank (nameAt steps i), fun i j hij => ?_⟩
  obtain ⟨step, hstep, -⟩ := id hij
  have hi : position steps step.name = some i := position_of_getElem? h.nodup hstep
  obtain ⟨source, hj, hdep⟩ := hij.dependency hi
  obtain ⟨target, htarget, rfl⟩ := position_eq_some hj
  have hlt := hrank step.name
    (List.mem_dedup.mpr (List.mem_map_of_mem (List.mem_of_getElem? hstep))) target.name hdep
  simpa [nameAt, hstep, htarget] using hlt

variable (E steps) in
/-- Every step of the list is referred to by the next one only, and as a whole; the last one is not
referred to. -/
def IsLine : List ℕ → Prop
  | [] => False
  | [j] => consumersOf E steps j = []
  | j :: i :: rest => consumersOf E steps j = [(i, false)] ∧ IsLine (i :: rest)

variable {nodes : List ℕ}

/-- A walk that ends has gone along a line of streaming steps that no walk had visited. -/
theorem walkChain_eq_ok {fuel : ℕ} {visited nodes' visited' : List ℕ} {cur c : ℕ}
    (h : walkChain E steps fuel visited nodes cur c = .ok (nodes', visited')) :
    ∃ line, nodes' = nodes ++ c :: line ∧ IsLine E steps (c :: line) ∧
      (∀ i ∈ c :: line, isStream steps i = true ∧ i ∉ visited) ∧
      ∀ i, i ∈ visited' ↔ i ∈ c :: line ∨ i ∈ visited := by
  induction fuel generalizing visited nodes cur c with
  | zero => exact absurd h (by simp [walkChain])
  | succ fuel ih =>
    simp only [walkChain, bind_eq_ok] at h
    obtain ⟨_, hstream, _, hfresh, h⟩ := h
    have hc : isStream steps c = true ∧ c ∉ visited :=
      ⟨by simpa using hstream, by simpa using hfresh⟩
    split at h
    · rename_i hnone
      obtain ⟨rfl, rfl⟩ := Prod.mk.inj (pure_eq_ok.mp h)
      exact ⟨[], rfl, hnone, by simpa using hc, by simp⟩
    · rename_i c₂ fieldRef hone
      simp only [bind_eq_ok, rejectIf_eq_ok] at h
      obtain ⟨_, rfl, h⟩ := h
      obtain ⟨line, hresult, hline, hnodes, hvisited⟩ := ih h
      refine ⟨c₂ :: line, by rw [hresult, List.append_assoc]; rfl, ⟨hone, hline⟩, ?_, fun i => ?_⟩
      · refine List.forall_mem_cons.mpr ⟨hc, fun i hi => ⟨(hnodes i hi).1, fun hmem => ?_⟩⟩
        exact (hnodes i hi).2 (List.mem_cons_of_mem c hmem)
      · rw [hvisited i, List.mem_cons (b := c), List.mem_cons (b := c)]
        tauto
    · exact absurd h (by simp)

theorem IsLine.next_of_refers (h : IsLine E steps nodes) {k : ℕ} (hk : nodes[k]? = some j)
    (hij : Refers E steps i j) : nodes[k + 1]? = some i := by
  obtain ⟨field, hmem⟩ := hij.mem_consumersOf
  induction nodes generalizing k with
  | nil => simp at hk
  | cons first rest ih =>
    cases rest with
    | nil =>
      cases k with
      | zero =>
        obtain rfl : first = j := by simpa using hk
        have hnone : consumersOf E steps first = [] := h
        rw [hnone] at hmem
        exact absurd hmem List.not_mem_nil
      | succ k => simp at hk
    | cons second rest =>
      cases k with
      | zero =>
        obtain rfl : first = j := by simpa using hk
        rw [h.1, List.mem_singleton] at hmem
        simp [(Prod.mk.inj hmem).1]
      | succ k => exact ih h.2 hk

variable {rank : ℕ → ℕ} {rest : List ℕ}

/-- Along a line every step refers to the one before it. -/
theorem IsLine.rank_lt (hdag : DagRules E steps)
    (hrank : ∀ i j, Refers E steps i j → rank j < rank i) {first : ℕ}
    (h : IsLine E steps (first :: rest)) : ∀ i ∈ rest, rank first < rank i := by
  induction rest generalizing first with
  | nil => exact fun i hi => absurd hi List.not_mem_nil
  | cons second rest ih =>
    have hlt : rank first < rank second :=
      hrank second first (hdag.refers_of_mem_consumersOf (h.1 ▸ List.mem_singleton_self _))
    intro i hi
    rcases List.mem_cons.mp hi with rfl | hi
    · exact hlt
    · exact hlt.trans (ih h.2 i hi)

theorem IsLine.nodup (hdag : DagRules E steps) (hrank : ∀ i j, Refers E steps i j → rank j < rank i)
    (h : IsLine E steps nodes) : nodes.Nodup := by
  induction nodes with
  | nil => exact List.nodup_nil
  | cons first rest ih =>
    refine List.nodup_cons.mpr ⟨fun hmem => ?_, ?_⟩
    · exact Nat.lt_irrefl _ (h.rank_lt hdag hrank first hmem)
    · cases rest with
      | nil => exact List.nodup_nil
      | cons second rest => exact ih h.2

theorem IsLine.lt (hdag : DagRules E steps) {first : ℕ} (h : IsLine E steps (first :: rest)) :
    ∀ i ∈ rest, i < steps.length := by
  induction rest generalizing first with
  | nil => exact fun i hi => absurd hi List.not_mem_nil
  | cons second rest ih =>
    obtain ⟨step, hstep, -⟩ :=
      hdag.refers_of_mem_consumersOf (h.1 ▸ List.mem_singleton_self (second, false))
    intro i hi
    rcases List.mem_cons.mp hi with rfl | hi
    · exact (List.getElem?_eq_some_iff.mp hstep).1
    · exact ih h.2 i hi

/-- What the scan knows of a chain it found. -/
structure ChainOk (E : Externals) (steps : List EnsembleStep) (outputStep : ℕ) (chain : Chain) :
    Prop where
  line : IsLine E steps chain.nodes
  head : ∀ i, chain.nodes.head? = some i → i < steps.length
  last : chain.nodes.getLast? = some outputStep

variable {outputStep : ℕ}

theorem scanStream_chainOk {s : ℕ} {found result : List Chain × List ℕ}
    (h : scanStream E steps outputStep found s = .ok result) (hs : s < steps.length)
    (hfound : ∀ chain ∈ found.1, ChainOk E steps outputStep chain) :
    ∀ chain ∈ result.1, ChainOk E steps outputStep chain := by
  rw [scanStream] at h
  split at h
  · obtain rfl := pure_eq_ok.mp h
    exact hfound
  · split at h
    · simp only [bind_eq_ok] at h
      obtain ⟨_, -, h⟩ := h
      obtain rfl := pure_eq_ok.mp h
      exact hfound
    · rename_i c fieldRef hone
      simp only [bind_eq_ok, rejectIf_eq_ok] at h
      obtain ⟨_, rfl, ⟨nodes, visited'⟩, hwalk, _, htail, h⟩ := h
      obtain rfl := pure_eq_ok.mp h
      obtain ⟨line, rfl, hline, -, -⟩ := walkChain_eq_ok hwalk
      intro chain hchain
      rcases List.mem_append.mp hchain with hold | hnew
      · exact hfound chain hold
      · obtain rfl := List.mem_singleton.mp hnew
        refine ⟨⟨hone, hline⟩, ?_, ?_⟩
        · rintro i hi
          obtain rfl : s = i := by simpa using hi
          exact hs
        · simpa [List.getLast?_cons] using htail
    · exact absurd h (by simp)

theorem buildChains_chainOk {chains : List Chain}
    (h : buildChains E steps outputStep = .ok chains) :
    ∀ chain ∈ chains, ChainOk E steps outputStep chain := by
  rw [buildChains] at h
  split at h
  · obtain rfl := pure_eq_ok.mp h
    exact fun chain hchain => absurd hchain List.not_mem_nil
  · obtain ⟨⟨_, visited⟩, hfold, h⟩ := bind_eq_ok.mp h
    obtain rfl := pure_eq_ok.mp h
    exact foldlM_invariant
      (fun _ _ s hs hstep hfound => scanStream_chainOk hstep (List.mem_range.mp hs) hfound) hfold
      fun chain hchain => absurd hchain List.not_mem_nil

end

/-! ### What a call runs -/

/-- The steps a call schedules after its layers: the chain, or the tail with its siblings. -/
def tailSteps (plan : EnsemblePlan) : List ℕ :=
  if plan.streams then
    match plan.chains with
    | chain :: _ => chain.nodes
    | [] => plan.outputStep :: siblings plan
  else []

/-- The steps a call schedules, in order. -/
def callOrder (plan : EnsemblePlan) : List ℕ :=
  ((runLayers plan).getD []).flatten ++ tailSteps plan

/-- `j` is right before `i` in the chain of the plan. -/
def ChainPred (plan : EnsemblePlan) (j i : ℕ) : Prop :=
  ∃ chain ∈ plan.chains.head?, ∃ k, chain.nodes[k]? = some j ∧ chain.nodes[k + 1]? = some i

section

variable {E : Externals} {order : IterOrder String} {plan : EnsemblePlan}

theorem Loaded.exists_rank (h : Loaded E order plan) :
    ∃ rank : ℕ → ℕ, ∀ i j, Refers E plan.steps i j → rank j < rank i :=
  h.dagRules.exists_rank h.acyclic

variable {chain : Chain}

theorem Loaded.chainOk (h : Loaded E order plan) (hchain : chain ∈ plan.chains) :
    ChainOk E plan.steps plan.outputStep chain :=
  buildChains_chainOk h.chains chain hchain

theorem Loaded.chain_nodup (h : Loaded E order plan) (hchain : chain ∈ plan.chains) :
    chain.nodes.Nodup := by
  obtain ⟨rank, hrank⟩ := h.exists_rank
  exact (h.chainOk hchain).line.nodup h.dagRules hrank

theorem Loaded.chain_lt (h : Loaded E order plan) (hchain : chain ∈ plan.chains) :
    ∀ i ∈ chain.nodes, i < plan.steps.length := by
  have hok := h.chainOk hchain
  cases hnodes : chain.nodes with
  | nil => exact fun i hi => absurd hi List.not_mem_nil
  | cons first rest =>
    have hline := hok.line
    rw [hnodes] at hline
    intro i hi
    rcases List.mem_cons.mp hi with rfl | hi
    · exact hok.head i (by rw [hnodes]; rfl)
    · exact hline.lt h.dagRules i hi

variable {i j : ℕ}

/-- A step outside a chain refers to no step of it. -/
theorem Loaded.notMem_chain_of_refers (h : Loaded E order plan) (hchain : chain ∈ plan.chains)
    (hi : i ∉ chain.nodes) (hij : Refers E plan.steps i j) : j ∉ chain.nodes := by
  intro hj
  obtain ⟨k, hk⟩ := List.getElem?_of_mem hj
  exact hi (List.mem_of_getElem? ((h.chainOk hchain).line.next_of_refers hk hij))

theorem flatten_preLayers (plan : EnsemblePlan) (chain : Chain) :
    (preLayers plan chain).flatten =
      plan.layers.flatten.filter fun i => !chain.nodes.contains i := by
  rw [preLayers, List.flatten_filter_not_isEmpty, List.filter_flatten]

theorem runLayers_unary (h : plan.streams = false) : runLayers plan = some plan.layers := by
  simp [runLayers, h]

variable {chains : List Chain}

theorem runLayers_chain (h : plan.streams = true) (hchains : plan.chains = chain :: chains) :
    runLayers plan = some (preLayers plan chain) := by
  simp [runLayers, h, hchains]

theorem runLayers_tail (h : plan.streams = true) (hchains : plan.chains = []) :
    runLayers plan = (tailLayer plan).map plan.layers.take := by
  simp [runLayers, h, hchains]

variable {layers : List (List ℕ)}

/-- **The layers a call runs respect the references.** -/
theorem Loaded.runLayered (h : Loaded E order plan) (hlayers : runLayers plan = some layers) :
    Layered (Refers E plan.steps) (fun _ => False) layers := by
  cases hstreams : plan.streams with
  | false =>
    rw [runLayers_unary hstreams] at hlayers
    exact Option.some.inj hlayers ▸ h.layered
  | true =>
    cases hchains : plan.chains with
    | nil =>
      rw [runLayers_tail hstreams hchains] at hlayers
      obtain ⟨k, -, rfl⟩ := Option.map_eq_some_iff.mp hlayers
      exact h.layered.take k
    | cons chain chains =>
      rw [runLayers_chain hstreams hchains] at hlayers
      obtain rfl := Option.some.inj hlayers
      refine (h.layered.filter fun i j hi hij => ?_).filter_nonempty
      have hmem : chain ∈ plan.chains := hchains ▸ List.mem_cons_self
      simpa using h.notMem_chain_of_refers hmem (by simpa using hi) hij

/-- What the tail and its siblings refer to is in the layers before them. -/
theorem Loaded.tail_refs (h : Loaded E order plan) (hstreams : plan.streams = true)
    (hchains : plan.chains = []) (hlayers : runLayers plan = some layers)
    (hi : i ∈ plan.outputStep :: siblings plan) (hij : Refers E plan.steps i j) :
    j ∈ layers.flatten := by
  rw [runLayers_tail hstreams hchains] at hlayers
  obtain ⟨k, hk, rfl⟩ := Option.map_eq_some_iff.mp hlayers
  obtain ⟨hlt, htail, -⟩ := List.findIdx?_eq_some_iff_getElem.mp hk
  have hlayer : plan.layers[k]? = some plan.layers[k] := List.getElem?_eq_getElem hlt
  have himem : i ∈ plan.layers[k] := by
    rcases List.mem_cons.mp hi with rfl | hi
    · simpa using htail
    · rw [siblings, hk] at hi
      simp only [hlayer] at hi
      exact (List.mem_filter.mp hi).1
  exact (h.layered.mem_take hlayer himem hij).resolve_left id

/-- What a step of the chain refers to is its predecessor, or in the layers before the chain. -/
theorem Loaded.chain_refs (h : Loaded E order plan) (hstreams : plan.streams = true)
    (hchains : plan.chains = chain :: chains) (hlayers : runLayers plan = some layers)
    (hij : Refers E plan.steps i j) : j ∈ layers.flatten ∨ ChainPred plan j i := by
  rw [runLayers_chain hstreams hchains] at hlayers
  obtain rfl := Option.some.inj hlayers
  have hmem : chain ∈ plan.chains := hchains ▸ List.mem_cons_self
  by_cases hj : j ∈ chain.nodes
  · obtain ⟨k, hk⟩ := List.getElem?_of_mem hj
    have hnext := (h.chainOk hmem).line.next_of_refers hk hij
    exact .inr ⟨chain, by rw [hchains]; rfl, k, hk, hnext⟩
  · left
    rw [flatten_preLayers, List.mem_filter]
    exact ⟨h.layers_perm.mem_iff.mpr (List.mem_range.mpr hij.lt), by simpa using hj⟩

/-- **A unary call and a pipeline schedule every step once.** -/
theorem Loaded.callOrder_perm (h : Loaded E order plan)
    (hform : plan.streams = false ∨ plan.chains ≠ []) :
    (callOrder plan).Perm (List.range plan.steps.length) := by
  cases hstreams : plan.streams with
  | false =>
    rw [callOrder, runLayers_unary hstreams]
    simpa [tailSteps, hstreams] using h.layers_perm
  | true =>
    obtain ⟨chain, chains, hchains⟩ :=
      List.exists_cons_of_ne_nil (hform.resolve_left (by simp [hstreams]))
    have hmem : chain ∈ plan.chains := hchains ▸ List.mem_cons_self
    have horder : callOrder plan =
        (plan.layers.flatten.filter fun i => !chain.nodes.contains i) ++ chain.nodes := by
      rw [callOrder, runLayers_chain hstreams hchains, Option.getD_some, flatten_preLayers]
      simp [tailSteps, hstreams, hchains]
    have hlayers : plan.layers.flatten.Nodup := h.layers_perm.nodup_iff.mpr List.nodup_range
    rw [horder, List.perm_ext_iff_of_nodup ?_ List.nodup_range]
    · intro i
      rw [List.mem_append, List.mem_filter, h.layers_perm.mem_iff, List.mem_range]
      constructor
      · rintro (hi | hi)
        · exact hi.1
        · exact h.chain_lt hmem i hi
      · intro hi
        by_cases hic : i ∈ chain.nodes
        · exact .inr hic
        · exact .inl ⟨hi, by simpa using hic⟩
    · refine List.nodup_append.mpr ⟨hlayers.filter _, h.chain_nodup hmem, ?_⟩
      rintro a ha b hb rfl
      exact absurd hb (by simpa using (List.mem_filter.mp ha).2)

/-- **No call schedules a step twice.** -/
theorem Loaded.callOrder_nodup (h : Loaded E order plan) : (callOrder plan).Nodup := by
  by_cases hform : plan.streams = false ∨ plan.chains ≠ []
  · exact (h.callOrder_perm hform).nodup_iff.mpr List.nodup_range
  · obtain ⟨hstreams, hchains⟩ := not_or.mp hform
    rw [Bool.not_eq_false] at hstreams
    rw [not_not] at hchains
    have hlayers : plan.layers.flatten.Nodup := h.layers_perm.nodup_iff.mpr List.nodup_range
    rw [callOrder, runLayers_tail hstreams hchains, tailSteps, if_pos hstreams, hchains]
    cases hk : tailLayer plan with
    | none => simp [siblings, hk]
    | some k =>
      obtain ⟨hlt, htail, -⟩ := List.findIdx?_eq_some_iff_getElem.mp hk
      have hout : plan.outputStep ∈ plan.layers[k] := by simpa using htail
      -- The layers up to that of the tail, with the tail moved to the front of its layer.
      have hsplit : plan.layers.flatten = (plan.layers.take k).flatten ++
          (plan.layers[k] ++ (plan.layers.drop (k + 1)).flatten) := by
        rw [← List.flatten_cons, ← List.drop_eq_getElem_cons hlt, ← List.flatten_append,
          List.take_append_drop]
      rw [hsplit, List.nodup_append] at hlayers
      obtain ⟨hbefore, hrest, hdisjoint⟩ := hlayers
      have hlayer : plan.layers[k].Nodup := (List.nodup_append.mp hrest).1
      have hsiblings : siblings plan = plan.layers[k].filter (· ≠ plan.outputStep) := by
        simp [siblings, hk, List.getElem?_eq_getElem hlt]
      rw [hsiblings]
      refine List.nodup_append.mpr ⟨hbefore, ?_, fun a ha b hb => ?_⟩
      · exact List.nodup_cons.mpr ⟨by simp, hlayer.filter _⟩
      · refine hdisjoint a ha b (List.mem_append_left _ ?_)
        rcases List.mem_cons.mp hb with rfl | hb
        · exact hout
        · exact (List.mem_filter.mp hb).1

end

end Ensemble

end LiteServer
