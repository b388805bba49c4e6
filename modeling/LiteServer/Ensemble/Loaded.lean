import LiteServer.Ensemble.Config

/-!
# What the loader guarantees

`Loaded` is the inversion of a successful load: every stage of the pipeline accepted, on the steps
of the plan that came out. The facts about a plan that later proofs start from are read off its
stages here, one rule at a time.

## Main results

* `loaded_of_parse` — a plan that `parseEnsembleSet` returns is `Loaded`
* `Loaded.dagRules` — step names are distinct and not reserved, and every reference of a step is
  well formed and names a root or a step
* `Loaded.acyclic` — the references form no cycle
* `Loaded.alias_ident`, `Loaded.input_ident` — declared names are identifiers
-/

namespace LiteServer

namespace Ensemble

open Checks

/-- Every stage of the load pipeline accepted the plan. -/
structure Loaded (E : Externals) (order : IterOrder String) (plan : EnsemblePlan) : Prop where
  dag : validateDag E order plan.steps = .ok ()
  output : ∃ output, resolveOutput E output plan.steps = .ok (plan.outputStep, plan.outputField)
  outputDecls : validateStepOutputDecls plan.steps = .ok ()
  types : ∃ types, analyzeStaticTypes E plan.steps plan.inputsDecl = .ok types ∧
    plan.inputModes = types.map (·.mode) ∧
    validateWhenRefs plan.steps plan.inputsDecl (types.map (·.cond)) = .ok plan.conditionalRefs
  skipRules : validateSkipRules E plan.steps plan.outputStep plan.conditionalRefs
    plan.outputs.isSome = .ok ()
  chains : buildChains E plan.steps plan.outputStep = .ok plan.chains
  layers : ∃ layers, topologicalLayers E order (1 + plan.steps.length) plan.steps = .ok layers ∧
    plan.layers = layers.map fun layer => layer.filterMap fun s => position plan.steps s.name
  depKeys : plan.steps.mapM (depKeys E plan.steps) = .ok plan.stepDepKeys

variable {E : Externals} {order : IterOrder String} {set : EnsembleDagSet}

theorem loaded_of_parse {plan : EnsemblePlan} (h : parseEnsembleSet E order set = .ok plan) :
    Loaded E order plan := by
  simp only [parseEnsembleSet, bind_eq_ok, Prod.exists] at h
  obtain ⟨steps, -, _, -, _, hdag, outputStep, outputField, houtput, _, hdecls, types, htypes,
    conditionalRefs, hwhen, _, -, _, hskip, _, -, chains, hchains, _, -, _, -, layers,
    hlayers, depKeys, hdepKeys, h⟩ := h
  obtain rfl := pure_eq_ok.mp h
  exact ⟨hdag, ⟨_, houtput⟩, hdecls, ⟨types, htypes, rfl, hwhen⟩, hskip, hchains,
    ⟨layers, hlayers, rfl⟩, hdepKeys⟩

/-- A set that the loader takes, with what its plan satisfies: for closed sets, by evaluation. -/
theorem exists_parsed {P : EnsemblePlan → Prop} [DecidablePred P]
    (h : (parseEnsembleSet E order set).toOption.any (fun plan => decide (P plan)) = true) :
    ∃ plan, parseEnsembleSet E order set = .ok plan ∧ P plan := by
  cases hplan : parseEnsembleSet E order set with
  | error e => simp [hplan, Except.toOption] at h
  | ok plan => exact ⟨plan, rfl, by simpa [hplan, Except.toOption] using h⟩

/-! ### Names and references -/

/-- The rules of `validateDag`, apart from the cycle check. -/
structure DagRules (E : Externals) (steps : List EnsembleStep) : Prop where
  nonempty : steps ≠ []
  nodup : (steps.map (·.name)).Nodup
  name_ne : ∀ s ∈ steps, s.name ≠ "request" ∧ s.name ≠ "inputs"
  refs : ∀ s ∈ steps, ∀ ref ∈ s.inputs.values, ∃ source, refSource E ref = some source ∧
    (source = "request" ∨ source = "inputs" ∨ source ∈ steps.map (·.name))

variable {step : EnsembleStep}

theorem checkStepRefs_eq_ok {names : List String} :
    checkStepRefs E names step = .ok () ↔ ∀ ref ∈ step.inputs.values,
      ∃ source, refSource E ref = some source ∧
        (source = "request" ∨ source = "inputs" ∨ source ∈ names) := by
  simp only [checkStepRefs, forM_eq_ok, bind_eq_ok, okOr_eq_ok]
  refine forall₂_congr fun ref _ => exists_congr fun source => and_congr_right fun _ => ?_
  by_cases h₁ : source = "request" <;> by_cases h₂ : source = "inputs" <;> simp [h₁, h₂]

variable {source : String}

theorem mem_stepSources :
    source ∈ stepSources E step ↔ (∃ ref ∈ step.inputs.values, refSource E ref = some source) ∧
      source ≠ "request" ∧ source ≠ "inputs" := by
  simp [stepSources]

theorem mem_dependencies {steps : List EnsembleStep} {name : String} :
    source ∈ dependencies E steps name ↔
      ∃ step ∈ steps, step.name = name ∧ source ∈ stepSources E step := by
  simp [dependencies, and_assoc]

section

variable {E : Externals} {steps : List EnsembleStep}

/-- The steps a step depends on are steps. -/
theorem DagRules.dependency_mem (h : DagRules E steps) {name source : String}
    (hdep : source ∈ dependencies E steps name) : source ∈ steps.map (·.name) := by
  obtain ⟨step, hstep, -, hsource⟩ := mem_dependencies.mp hdep
  obtain ⟨⟨ref, href, hcap⟩, hreq, hinp⟩ := mem_stepSources.mp hsource
  obtain ⟨source', hcap', hname⟩ := h.refs step hstep ref href
  obtain rfl := Option.some.inj (hcap.symm.trans hcap')
  exact (hname.resolve_left hreq).resolve_left hinp

theorem DagRules.nodes (h : DagRules E steps) :
    (depGraph E steps).nodes = steps.map (·.name) := h.nodup.dedup

theorem DagRules.closed (h : DagRules E steps) : (depGraph E steps).Closed := by
  intro v _ u hu
  rw [h.nodes]
  exact h.dependency_mem hu

variable (E) in
/-- Under the rules the cycle check ends, and lets every step through exactly of a ranked graph. -/
theorem DagRules.visit (h : DagRules E steps) (order : IterOrder String) :
    ∃ k, Kahn.visit (depGraph E steps) (depGraph E steps).nodes.length
        (Kahn.inDegree (depGraph E steps)) ((order.iter 0 (depGraph E steps).nodes).filter
          fun n => Kahn.inDegree (depGraph E steps) n = 0).reverse 0 = some k ∧
      (k = steps.length ↔ (depGraph E steps).Acyclic) := by
  have hlen : (depGraph E steps).nodes.length = steps.length := by rw [h.nodes, List.length_map]
  rw [← hlen]
  refine Kahn.visit_spec h.closed ?_ fun v => ?_
  · rw [List.nodup_reverse]
    exact ((order.perm 0 _).nodup_iff.mpr (depGraph E steps).nodup).filter _
  · rw [List.mem_reverse, List.mem_filter, (order.perm 0 _).mem_iff, decide_eq_true_iff]

/-- The checks before the cycle check. -/
theorem dagRules_iff : DagRules E steps ↔ steps.isEmpty = false ∧
    ((steps.map (·.name)).dedup.length ≠ steps.length) = False ∧
    (∀ s ∈ steps, (s.name = "request" || s.name = "inputs") = false) ∧
    ∀ s ∈ steps, checkStepRefs E (steps.map (·.name)).dedup s = .ok () := by
  simp only [checkStepRefs_eq_ok, List.mem_dedup]
  constructor
  · intro h
    refine ⟨by simpa using h.nonempty, ?_, fun s hs => by simpa using h.name_ne s hs, h.refs⟩
    rw [h.nodup.dedup, List.length_map]
    simp
  · rintro ⟨hempty, hlen, hname, hrefs⟩
    refine ⟨by simpa using hempty, ?_, fun s hs => by simpa using hname s hs, hrefs⟩
    have hdedup : (steps.map (·.name)).dedup = steps.map (·.name) := by
      refine (List.dedup_sublist _).eq_of_length ?_
      simpa using hlen
    exact hdedup ▸ List.nodup_dedup _

theorem validateDag_eq_ok {order : IterOrder String} : validateDag E order steps = .ok () ↔
    DagRules E steps ∧ (depGraph E steps).Acyclic := by
  simp only [validateDag, bind_eq_ok, rejectIf_eq_ok, forM_eq_ok, okOr_eq_ok]
  constructor
  · rintro ⟨_, hempty, _, hlen, _, hname, _, hrefs, visited, hvisit, hvisited⟩
    have hrules : DagRules E steps :=
      dagRules_iff.mpr ⟨hempty, by simpa using hlen, hname, hrefs⟩
    obtain ⟨k, hk, hiff⟩ := hrules.visit E order
    obtain rfl := Option.some.inj (hvisit.symm.trans hk)
    exact ⟨hrules, hiff.mp (by simpa using hvisited)⟩
  · rintro ⟨hrules, hacyclic⟩
    obtain ⟨hempty, hlen, hname, hrefs⟩ := dagRules_iff.mp hrules
    obtain ⟨k, hk, hiff⟩ := hrules.visit E order
    exact ⟨(), hempty, (), by simpa using hlen, (), hname, (), hrefs, k, hk,
      by simpa using hiff.mpr hacyclic⟩

end

section

variable {E : Externals} {order : IterOrder String} {plan : EnsemblePlan}

theorem Loaded.dagRules (h : Loaded E order plan) : DagRules E plan.steps :=
  (validateDag_eq_ok.mp h.dag).1

theorem Loaded.acyclic (h : Loaded E order plan) : (depGraph E plan.steps).Acyclic :=
  (validateDag_eq_ok.mp h.dag).2

/-! ### Declared names -/

variable {name : String}

theorem Loaded.alias_ident (h : Loaded E order plan) {s : EnsembleStep} (hs : s ∈ plan.steps)
    {decl : IndexMap String StepOutputDecl} (hdecl : s.outputsDecl = some decl)
    (hname : name ∈ decl.keys) : isIdent name = true := by
  have hstep := forM_eq_ok.mp h.outputDecls s hs
  rw [hdecl] at hstep
  obtain ⟨e, he, rfl⟩ := List.mem_map.mp hname
  have hcheck := forM_eq_ok.mp hstep e he
  simp only [checkOutputDecl, bind_eq_ok] at hcheck
  obtain ⟨_, hident, _⟩ := hcheck
  simpa using hident

theorem Loaded.input_ident (h : Loaded E order plan) {decl : IndexMap String InputDecl}
    (hdecl : plan.inputsDecl = some decl) (hname : name ∈ decl.keys) : isIdent name = true := by
  obtain ⟨types, htypes, -⟩ := h.types
  rw [hdecl] at htypes
  simp only [analyzeStaticTypes, checkInputDecls, bind_eq_ok, forM_eq_ok] at htypes
  obtain ⟨_, hcheck, -⟩ := htypes
  obtain ⟨e, he, rfl⟩ := List.mem_map.mp hname
  have hcheck := hcheck e he
  simp only [checkInputDecl, bind_eq_ok] at hcheck
  obtain ⟨_, hident, _⟩ := hcheck
  simpa using hident

end

/-! ### What a reference names -/

/-- A reference that the type analysis accepts, of a step that refers to the optional inputs
`cond`. -/
inductive RefOk (E : Externals) (steps : List EnsembleStep)
    (inputsDecl : Option (IndexMap String InputDecl)) (cond : List String) (ref : String) : Prop
  | request {rest} : refCaptures E ref = some ("request", rest) → inputsDecl = none →
      RefOk E steps inputsDecl cond ref
  | input {rest decl d} : refCaptures E ref = some ("inputs", rest) → inputsDecl = some decl →
      decl.get? (headOf rest) = some d → (d.optional = true → headOf rest ∈ cond) →
      RefOk E steps inputsDecl cond ref
  | step {source rest src} : refCaptures E ref = some (source, rest) → source ≠ "request" →
      source ≠ "inputs" → findStep steps source = some src →
      (∀ decl, src.outputsDecl = some decl → headOf rest ∈ decl.keys) →
      RefOk E steps inputsDecl cond ref

section

variable {E : Externals} {steps : List EnsembleStep}
  {inputsDecl : Option (IndexMap String InputDecl)} {step : EnsembleStep} {env env' : RefEnv}
  {ref : String}

variable {cond cond' : List String}

theorem RefOk.mono (h : RefOk E steps inputsDecl cond ref) (hsub : ∀ n ∈ cond, n ∈ cond') :
    RefOk E steps inputsDecl cond' ref := by
  cases h with
  | request hcap hnone => exact .request hcap hnone
  | input hcap hdecl hget hopt => exact .input hcap hdecl hget fun ho => hsub _ (hopt ho)
  | step hcap hreq hinp hfind halias => exact .step hcap hreq hinp hfind halias

variable {e : AppError}

theorem addJson_cond (h : env.addJson e = .ok env') : env'.cond = env.cond := by
  simp only [RefEnv.addJson, bind_eq_ok, pure_eq_ok] at h
  obtain ⟨_, -, rfl⟩ := h
  rfl

theorem addBinary_cond (h : env.addBinary e = .ok env') : env'.cond = env.cond := by
  simp only [RefEnv.addBinary, bind_eq_ok, pure_eq_ok] at h
  obtain ⟨_, -, rfl⟩ := h
  rfl

theorem mem_addCond {name : String} {d : InputDecl} {n : String} :
    n ∈ (env.addCond name d).cond ↔ n ∈ env.cond ∨ d.optional = true ∧ n = name := by
  rw [RefEnv.addCond]
  split <;> simp_all

variable {rest : Option String}

/-- The optional inputs only grow, and an accepted input is declared. -/
theorem analyzeInputRef_eq_ok (h : analyzeInputRef inputsDecl step env ref rest = .ok env') :
    ∃ decl d, inputsDecl = some decl ∧ decl.get? (headOf rest) = some d ∧
      ∀ n, n ∈ env'.cond ↔ n ∈ env.cond ∨ d.optional = true ∧ n = headOf rest := by
  simp only [analyzeInputRef, bind_eq_ok, okOr_eq_ok] at h
  obtain ⟨decl, hdecl, d, hd, h⟩ := h
  refine ⟨decl, d, hdecl, hd, fun n => ?_⟩
  split at h
  · simp only [bind_eq_ok, pure_eq_ok] at h
    obtain ⟨env₁, hadd, rfl⟩ := h
    rw [mem_addCond, addJson_cond hadd]
  · simp only [bind_eq_ok, pure_eq_ok] at h
    obtain ⟨_, -, env₁, hadd, rfl⟩ := h
    rw [mem_addCond, addBinary_cond hadd]

/-- The optional inputs stay, and an accepted step has the alias the reference names. -/
theorem analyzeStepRef_eq_ok {declared : Bool} {source : String}
    (h : analyzeStepRef steps declared step env ref source rest = .ok env') :
    env'.cond = env.cond ∧ ∃ src, findStep steps source = some src ∧
      ∀ decl, src.outputsDecl = some decl → headOf rest ∈ decl.keys := by
  simp only [analyzeStepRef, bind_eq_ok, okOr_eq_ok] at h
  obtain ⟨src, hsrc, h⟩ := h
  split at h
  · rename_i hnone
    refine ⟨?_, src, hsrc, fun decl hdecl => absurd (hnone.symm.trans hdecl) (by simp)⟩
    split at h
    · exact addJson_cond h
    · rw [pure_eq_ok.mp h]
  · rename_i aliasDecl hsome
    simp only [bind_eq_ok, okOr_eq_ok] at h
    obtain ⟨r, rfl, d, hd, h⟩ := h
    refine ⟨?_, src, hsrc, fun decl hdecl => ?_⟩
    · split at h
      · simp only [bind_eq_ok] at h
        obtain ⟨_, -, h⟩ := h
        split at h
        · exact addBinary_cond h
        · rw [pure_eq_ok.mp h]
      · split at h
        · exact addJson_cond h
        · rw [pure_eq_ok.mp h]
    · obtain rfl := Option.some.inj (hsome.symm.trans hdecl)
      exact IndexMap.mem_keys_of_get? hd

/-- An accepted reference names what is there, and the optional inputs grow by the one it names. -/
theorem analyzeRef_eq_ok (h : analyzeRef E steps inputsDecl step env ref = .ok env') :
    RefOk E steps inputsDecl env'.cond ref ∧ (∀ n ∈ env.cond, n ∈ env'.cond) ∧
      ∀ n ∈ env'.cond, n ∈ env.cond ∨ ∃ rest, refCaptures E ref = some ("inputs", rest) ∧
        n = headOf rest := by
  simp only [analyzeRef, bind_eq_ok, okOr_eq_ok, Prod.exists] at h
  obtain ⟨source, rest, hcap, h⟩ := h
  split at h
  · rename_i hreq
    subst hreq
    simp only [bind_eq_ok, pure_eq_ok] at h
    obtain ⟨_, hnone, rfl⟩ := h
    exact ⟨.request hcap (by simpa using hnone), fun n hn => hn, fun n hn => .inl hn⟩
  · rename_i hreq
    split at h
    · rename_i hinp
      subst hinp
      obtain ⟨decl, d, hdecl, hd, hcond⟩ := analyzeInputRef_eq_ok h
      refine ⟨.input hcap hdecl hd fun hopt => (hcond _).mpr (.inr ⟨hopt, rfl⟩), fun n hn => ?_,
        fun n hn => ?_⟩
      · exact (hcond n).mpr (.inl hn)
      · exact ((hcond n).mp hn).imp_right fun hnew => ⟨rest, hcap, hnew.2⟩
    · rename_i hinp
      obtain ⟨hcond, src, hsrc, halias⟩ := analyzeStepRef_eq_ok h
      exact ⟨.step hcap hreq hinp hsrc halias, fun n hn => hcond ▸ hn,
        fun n hn => .inl (hcond ▸ hn)⟩

theorem analyzeStep_eq_ok (h : analyzeStep E steps inputsDecl step = .ok env) :
    ∀ ref ∈ step.inputs.values, RefOk E steps inputsDecl env.cond ref := by
  simp only [analyzeStep, bind_eq_ok, pure_eq_ok] at h
  obtain ⟨_, -, env', hfold, _, -, rfl⟩ := h
  intro ref href
  exact foldlM_of_mem href
    (fun _ _ hstep => (analyzeRef_eq_ok hstep).1)
    (fun _ _ _ _ hstep hok => hok.mono (analyzeRef_eq_ok hstep).2.1) hfold

/-- The optional inputs of a step are those some reference of it names. -/
theorem mem_cond_of_analyzeStep (h : analyzeStep E steps inputsDecl step = .ok env) :
    ∀ n ∈ env.cond, ∃ ref ∈ step.inputs.values, ∃ rest,
      refCaptures E ref = some ("inputs", rest) ∧ n = headOf rest := by
  simp only [analyzeStep, bind_eq_ok, pure_eq_ok] at h
  obtain ⟨_, -, env', hfold, _, -, rfl⟩ := h
  refine foldlM_invariant (P := fun env => ∀ n ∈ env.cond, ∃ ref ∈ step.inputs.values, ∃ rest,
    refCaptures E ref = some ("inputs", rest) ∧ n = headOf rest) ?_ hfold ?_
  · intro env₁ env₂ ref href hstep ih n hn
    rcases (analyzeRef_eq_ok hstep).2.2 n hn with hold | hnew
    · exact ih n hold
    · exact ⟨ref, href, hnew⟩
  · exact fun n hn => absurd hn List.not_mem_nil

/-- A step with a condition does not stream, and an optional input the condition asks about is one
of the step's. -/
theorem checkWhen_eq_ok {expr : WhenExpr} (hwhen : step.when = some expr)
    (h : checkWhen inputsDecl (step, cond) = .ok cond') :
    step.stream = false ∧
      ∀ n, n ∈ cond' ↔ n ∈ cond ∨ ∃ path decl d, expr.target = .input n path ∧
        inputsDecl = some decl ∧ decl.get? n = some d ∧ d.optional = true := by
  simp only [checkWhen, hwhen, bind_eq_ok] at h
  obtain ⟨_, hstream, h⟩ := h
  refine ⟨by simpa using hstream, fun n => ?_⟩
  cases htarget : expr.target with
  | dag =>
    rw [htarget] at h
    simp [pure_eq_ok.mp h]
  | clientIp =>
    rw [htarget] at h
    simp [pure_eq_ok.mp h]
  | input name path =>
    rw [htarget] at h
    simp only [bind_eq_ok, okOr_eq_ok, pure_eq_ok] at h
    obtain ⟨decl, hdecl, d, hd, _, -, rfl⟩ := h
    split
    · rename_i hopt
      rw [List.mem_append, List.mem_singleton]
      refine or_congr_right ⟨?_, ?_⟩
      · rintro rfl
        exact ⟨path, decl, d, rfl, hdecl, hd, hopt⟩
      · rintro ⟨_, _, _, heq, -⟩
        exact (WhenTarget.input.inj heq).1.symm
    · rename_i hopt
      refine ⟨.inl, fun hn => hn.resolve_right ?_⟩
      rintro ⟨_, decl', d', heq, hdecl', hd', hopt'⟩
      obtain ⟨rfl, -⟩ := WhenTarget.input.inj heq
      obtain rfl := Option.some.inj (hdecl.symm.trans hdecl')
      obtain rfl := Option.some.inj (hd.symm.trans hd')
      exact hopt hopt'

theorem checkWhen_subset (h : checkWhen inputsDecl (step, cond) = .ok cond') :
    ∀ n ∈ cond, n ∈ cond' := by
  cases hwhen : step.when with
  | none =>
    simp only [checkWhen, hwhen, Except.ok.injEq] at h
    exact h ▸ fun n hn => hn
  | some expr => exact fun n hn => ((checkWhen_eq_ok hwhen h).2 n).mpr (.inl hn)

end

section

variable {E : Externals} {order : IterOrder String} {plan : EnsemblePlan}

/-- The optional inputs a step refers to. -/
def condAt (plan : EnsemblePlan) (i : ℕ) : List String := (plan.conditionalRefs[i]?).getD []

variable {i : ℕ} {step : EnsembleStep}

theorem Loaded.exists_cond (h : Loaded E order plan) (hstep : plan.steps[i]? = some step) :
    ∃ env cond,
      analyzeStep E plan.steps plan.inputsDecl step = .ok env ∧
      checkWhen plan.inputsDecl (step, env.cond) = .ok cond ∧
      plan.conditionalRefs[i]? = some cond := by
  obtain ⟨types, htypes, -, hwhen⟩ := h.types
  simp only [analyzeStaticTypes, bind_eq_ok] at htypes
  obtain ⟨_, -, htypes⟩ := htypes
  obtain ⟨env, henv, hanalyze⟩ := getElem?_of_mapM htypes hstep
  have hzip : (plan.steps.zip (types.map (·.cond)))[i]? = some (step, env.cond) := by
    rw [List.getElem?_zip_eq_some]
    exact ⟨hstep, by simp [henv]⟩
  obtain ⟨cond, hcond, hcheck⟩ := getElem?_of_mapM hwhen hzip
  exact ⟨env, cond, hanalyze, hcheck, hcond⟩

variable {ref : String}

/-- **Every reference of a step names what is there.** -/
theorem Loaded.refOk (h : Loaded E order plan) (hstep : plan.steps[i]? = some step)
    (href : ref ∈ step.inputs.values) : RefOk E plan.steps plan.inputsDecl (condAt plan i) ref := by
  obtain ⟨env, cond, hanalyze, hcheck, hcond⟩ := h.exists_cond hstep
  rw [condAt, hcond]
  exact (analyzeStep_eq_ok hanalyze ref href).mono (checkWhen_subset hcheck)

/-- The key of every reference of a step is among the keys its future is given. -/
theorem Loaded.depKey_mem (h : Loaded E order plan) (hstep : plan.steps[i]? = some step)
    {key : String} (href : ref ∈ step.inputs.values)
    (hkey : contextKeyForRef E plan.steps ref = .ok key) :
    key ∈ (plan.stepDepKeys[i]?).getD [] := by
  obtain ⟨keys, hkeys, hfold⟩ := getElem?_of_mapM h.depKeys hstep
  rw [hkeys]
  refine foldlM_of_mem (P := fun keys => key ∈ keys) href ?_ ?_ hfold
  · intro s t hst
    simp only [hkey, bind_eq_ok, Except.ok.injEq, exists_eq_left', pure_eq_ok] at hst
    subst hst
    split
    · rename_i hcontains
      simpa using hcontains
    · exact List.mem_append_right _ (List.mem_singleton_self key)
  · intro s t ref' _ hst hmem
    simp only [bind_eq_ok, pure_eq_ok] at hst
    obtain ⟨_, -, rfl⟩ := hst
    split
    · exact hmem
    · exact List.mem_append_left _ hmem

/-- Every DAG of an accepted file went through the load pipeline. -/
theorem loaded_of_select {block : EnsembleBlock} {file : PlanFile} {selector : Option String}
    (hfile : parseEnsemblePlan E order block = .ok file)
    (hselect : selectDagSet file selector = .ok plan) : Loaded E order plan := by
  rw [parseEnsemblePlan] at hfile
  split at hfile
  · simp only [bind_eq_ok, pure_eq_ok] at hfile
    obtain ⟨_, -, _, -, path, -, sets, hsets, _, -, rfl⟩ := hfile
    simp only [selectDagSet, okOr_eq_ok] at hselect
    obtain ⟨set, -, hset⟩ := IndexMap.mem_of_traverse hsets (IndexMap.mem_of_get? hselect)
    rw [parseDagSet] at hset
    split at hset
    · rename_i hparse
      exact Except.ok.inj hset ▸ loaded_of_parse hparse
    · exact absurd hset (by simp)
  · simp only [bind_eq_ok, pure_eq_ok] at hfile
    obtain ⟨_, -, single, hparse, rfl⟩ := hfile
    cases selector with
    | none => exact Except.ok.inj hselect ▸ loaded_of_parse hparse
    | some s => exact absurd hselect (by simp [selectDagSet])

end

end Ensemble

end LiteServer
