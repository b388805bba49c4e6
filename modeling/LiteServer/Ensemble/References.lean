import LiteServer.Ensemble.InputModes

/-!
# References

A reference is read twice. At load its context key is worked out, so that a step's future gets only
the part of the context it needs; at run time `resolveRef` works out the key again and follows the
path behind it. The two agree on every reference, so the part stands for the whole.

The path is not looked at when a plan is loaded. On the request root and on a step without declared
outputs a path of several segments is refused at run time, and so is an empty segment anywhere. A
reference of such a shape is accepted and then fails on every request.

## Main results

* `resolveRef_congr` — a reference depends on one key of the context
* `narrowing_invisible` — a step resolves its references alike in the whole context and in its part,
  also with a chunk of the previous step of a chain put in
* `refShapeOk_of_value` — what resolves to a value has a good shape
* `resolvable_iff_refShapeOk` — a reference of an accepted plan resolves in some context of the
  static types exactly when its shape is good
* `legacy_path_never_resolves` — accepted plans with references that never resolve
-/

namespace LiteServer

namespace Ensemble

open Checks

/-! ### The key of a reference -/

section

variable {E : Externals} {plan : EnsemblePlan} {ref : String} {context context' : Context}

/-- A reference depends on the value under its key, and on nothing else in the context. -/
theorem resolveRef_congr
    (h : ∀ key, contextKeyForRef E plan.steps ref = .ok key → context key = context' key) :
    resolveRef E plan ref context = resolveRef E plan ref context' := by
  rw [resolveRef, resolveRef]
  cases hcap : refCaptures E ref with
  | none => rfl
  | some caps =>
    obtain ⟨source, rest⟩ := caps
    simp only [okOr, bind, Except.bind]
    cases htarget : refTarget plan.steps ref source rest with
    | error e => rfl
    | ok target =>
      obtain ⟨key, path⟩ := target
      dsimp only
      -- the key at run time is the key at load
      rw [h key (refTarget_key htarget ▸ contextKeyForRef_eq hcap)]

end

/-- **A step sees no difference between the context and its part of it.** Every reference of a step
resolves alike in both: to the same value, the same absence or the same error. That stays so when
the chunk of a previous step of a chain is put into both. -/
theorem narrowing_invisible (E : Externals) (order : IterOrder String) (set : EnsembleDagSet)
    (plan : EnsemblePlan) (hplan : parseEnsembleSet E order set = .ok plan) (i : ℕ)
    (step : EnsembleStep) (hstep : plan.steps[i]? = some step) :
    ∃ keys, plan.stepDepKeys[i]? = some keys ∧ ∀ ref ∈ step.inputs.values, ∀ context : Context,
      resolveRef E plan ref (selectCtxKeys context keys) = resolveRef E plan ref context ∧
      ∀ prev chunk, resolveRef E plan ref
          (Function.update (selectCtxKeys context keys) prev (some chunk)) =
        resolveRef E plan ref (Function.update context prev (some chunk)) := by
  have hloaded := loaded_of_parse hplan
  obtain ⟨keys, hkeys, -⟩ := getElem?_of_mapM hloaded.depKeys hstep
  refine ⟨keys, hkeys, fun ref href context => ?_⟩
  have hselect (key : String) (hkey : contextKeyForRef E plan.steps ref = .ok key) :
      selectCtxKeys context keys key = context key := by
    have hmem := hloaded.depKey_mem hstep href hkey
    rw [hkeys] at hmem
    exact if_pos hmem
  refine ⟨resolveRef_congr hselect, fun prev chunk => resolveRef_congr fun key hkey => ?_⟩
  by_cases hprev : key = prev
  · rw [hprev, Function.update_self, Function.update_self]
  · rw [Function.update_of_ne hprev, Function.update_of_ne hprev, hselect key hkey]

theorem twoStepSet_narrowing : ∃ plan step keys,
    parseEnsembleSet plainExternals .listed (twoStepSet "t") = .ok plan ∧
    plan.steps[1]? = some step ∧ plan.stepDepKeys[1]? = some keys ∧ "$s.a" ∈ step.inputs.values ∧
    ∀ context : Context, resolveRef plainExternals plan "$s.a" (selectCtxKeys context keys) =
      resolveRef plainExternals plan "$s.a" context := by
  obtain ⟨plan, hplan, hsome, hmem⟩ : ∃ plan,
      parseEnsembleSet plainExternals .listed (twoStepSet "t") = .ok plan ∧
        (plan.steps[1]?).isSome = true ∧
        ∀ s ∈ plan.steps[1]?, "$s.a" ∈ s.inputs.values := exists_parsed (by decide)
  obtain ⟨step, hstep⟩ := Option.isSome_iff_exists.mp hsome
  obtain ⟨keys, hkeys, hnarrow⟩ :=
    narrowing_invisible plainExternals .listed _ plan hplan 1 step hstep
  have href := hmem step hstep
  exact ⟨plan, step, keys, hplan, hstep, hkeys, href, fun context => (hnarrow _ href context).1⟩

/-! ### Shapes -/

/-- The segments of a path; a leading `$.` is dropped. -/
def pathSegments (path : String) : List String := splitDots ((stripText "$." path).getD path)

/-- A reference that can resolve: behind a named input or a declared output no segment is empty, and
behind the request root or a step without declared outputs there is at most one. -/
def refShapeOk (E : Externals) (steps : List EnsembleStep) (ref : String) : Bool :=
  match refCaptures E ref with
  | none => false
  | some (source, rest) =>
    if source = "inputs" || (outputsDeclOf steps source).isSome then
      (rest.bind afterFirstSegment).all fun path => (pathSegments path).all (· ≠ "")
    else !rest.any hasDot

/-- The static type of what a writer writes. What has no declaration is JSON. -/
def Producer.ty (plan : EnsemblePlan) : Producer → Option InputType
  | .root => some .json
  | .input n => (plan.inputsDecl.bind (·.get? n)).map (·.ty)
  | .step _ => some .json
  | .output s a => ((outputsDeclOf plan.steps s).bind (·.get? a)).map (·.ty)

/-- A context with values of the static types: each is of the type of a writer of its key. -/
def StaticContext (plan : EnsemblePlan) (context : Context) : Prop :=
  ∀ key v, context key = some v →
    ∃ p ∈ producers plan, p.key = key ∧ ∃ ty, p.ty plan = some ty ∧ v.hasType ty = true

/-- The references of a plan: those of its steps, and its multi-sink outputs. -/
def IsReference (plan : EnsemblePlan) (ref : String) : Prop :=
  (∃ step ∈ plan.steps, ref ∈ step.inputs.values) ∨
    ∃ outputs, plan.outputs = some outputs ∧ ref ∈ outputs.values

section

variable {E : Externals} {plan : EnsemblePlan} {ref : String} {context : Context}

theorem all_pathSegments {path : Option String} :
    path.all (fun p => (pathSegments p).all (· ≠ "")) = true ↔
      ∀ text ∈ path, ∀ seg ∈ pathSegments text, seg ≠ "" := by
  cases path <;> simp

/-! ### What resolves has a good shape -/

variable {path : String}

/-- A projection goes over no empty segment. -/
theorem ne_empty_of_projectJsonPath {v w : Json} (h : projectJsonPath v path = .ok w) :
    ∀ seg ∈ pathSegments path, seg ≠ "" := by
  intro seg hseg
  refine foldlM_of_mem (P := fun _ => seg ≠ "") hseg ?_ (fun _ _ _ _ _ hne => hne) h
  intro s t hst
  simp only [projectSegment, bind_eq_ok] at hst
  obtain ⟨_, hne, -⟩ := hst
  simpa using hne

variable {source : String} {rest : Option String} {steps : List EnsembleStep} {v : EnsembleValue}

theorem ne_empty_of_readValue {data : EnsembleValue}
    (h : readValue E steps ref source rest (some path) data = .ok (.value v)) :
    ∀ seg ∈ pathSegments path, seg ≠ "" := by
  have hproject {w : Json} (hw : projectRef E ref w path = .ok (.value v)) :
      ∀ seg ∈ pathSegments path, seg ≠ "" := by
    rw [projectRef] at hw
    split at hw
    · rename_i hpath
      exact ne_empty_of_projectJsonPath hpath
    · exact absurd hw (by simp)
  cases data with
  | json w => exact hproject h
  | rawJson bytes =>
    simp only [readValue] at h
    split at h
    · exact hproject h
    · exact absurd h (by simp)
  | binary data ct shape datatype => exact absurd h (by simp [readValue])
  | envelope head tail => exact absurd h (by simp [readValue])

/-- **What resolves to a value has a good shape**, in whatever context. -/
theorem refShapeOk_of_value (h : resolveRef E plan ref context = .ok (.value v)) :
    refShapeOk E plan.steps ref = true := by
  simp only [resolveRef, bind_eq_ok, okOr_eq_ok, Prod.exists] at h
  obtain ⟨source, rest, hcap, key, path, htarget, h⟩ := h
  have hsegs : path.all (fun p => (pathSegments p).all (· ≠ "")) = true := by
    refine all_pathSegments.mpr fun text htext => ?_
    rw [Option.mem_def.mp htext] at h
    cases hctx : context key with
    | none => simp [hctx] at h
    | some data =>
      rw [hctx] at h
      exact ne_empty_of_readValue h
  rw [refTarget] at htarget
  simp only [refShapeOk, hcap]
  split at htarget
  · rename_i hinp
    obtain ⟨-, rfl⟩ := Prod.mk.inj (pure_eq_ok.mp htarget)
    simpa [hinp] using hsegs
  · rename_i hinp
    cases hdecl : outputsDeclOf plan.steps source with
    | some decl =>
      rw [hdecl] at htarget
      obtain ⟨-, rfl⟩ := Prod.mk.inj (pure_eq_ok.mp htarget)
      simpa using hsegs
    | none =>
      rw [hdecl] at htarget
      simp only [bind_eq_ok, rejectIf_eq_ok] at htarget
      obtain ⟨_, hdot, -⟩ := htarget
      simp [hinp, hdot]

/-! ### What has a good shape resolves -/

/-- A value with a member at the end of some segments. -/
def nested (segs : List String) : Json := segs.foldr (fun seg v => .object [(seg, v)]) .null

theorem projectJsonPath_nested (h : ∀ seg ∈ pathSegments path, seg ≠ "") :
    projectJsonPath (nested (pathSegments path)) path = .ok .null := by
  change (pathSegments path).foldlM _ _ = _
  generalize pathSegments path = segs at h ⊢
  induction segs with
  | nil => rfl
  | cons seg segs ih =>
    obtain ⟨hseg, hsegs⟩ := List.forall_mem_cons.mp h
    refine bind_eq_ok.mpr ⟨nested segs, ?_, ih hsegs⟩
    simp [projectSegment, rejectIf, hseg, nested, Json.get, bind, Except.bind]

theorem splitDots_of_noDot {s : String} (h : hasDot s = false) : splitDots s = [s] := by
  have haux (acc cs : List Char) (hcs : '.' ∉ cs) :
      splitDotsAux acc cs = [String.ofList (acc.reverse ++ cs)] := by
    induction cs generalizing acc with
    | nil => simp [splitDotsAux]
    | cons c cs ih =>
      rw [List.mem_cons, not_or] at hcs
      rw [splitDotsAux, if_neg (Ne.symm hcs.1), ih _ hcs.2]
      simp
  rw [splitDots, haux [] s.toList (by simpa [hasDot] using h)]
  simp

/-- A text without a dot is a path of one segment. -/
theorem pathSegments_of_noDot {s : String} (h : hasDot s = false) : pathSegments s = [s] := by
  have hstrip : stripText "$." s = none := by
    rw [stripText, if_neg]
    intro hstart
    obtain ⟨t, ht⟩ := List.isPrefixOf_iff_prefix.mp hstart
    have hdot : '.' ∈ s.toList := by
      rw [← ht]
      simp
    simp [hasDot, hdot] at h
  rw [pathSegments, hstrip, Option.getD_none, splitDots_of_noDot h]

theorem ne_empty_of_refCaptures {r : String} (h : refCaptures E ref = some (source, some r)) :
    r ≠ "" := by
  rw [refCaptures] at h
  split at h
  · dsimp only at h
    split at h
    · cases h
    · split at h
      · cases h
      · split at h
        · cases h
        · rintro hempty
          simp_all
      · cases h
  · cases h

/-- A reference with a good shape reads what a writer writes: the writer's key and type, and a path
that can be followed. Binary data is read whole, along a declared edge. -/
structure Reads (E : Externals) (plan : EnsemblePlan) (ref : String) (p : Producer)
    (ty : InputType) : Prop where
  writer : p ∈ producers plan
  static : p.ty plan = some ty
  target : ∃ source rest path, refCaptures E ref = some (source, rest) ∧
    refTarget plan.steps ref source rest = .ok (p.key, path) ∧
    (∀ text ∈ path, ∀ seg ∈ pathSegments text, seg ≠ "") ∧
    (ty = .binary → path = none ∧ declaredBinaryEdge plan.steps source rest = true)

variable {ty : InputType}

/-- What reads a writer resolves to a value, in a context where only that writer has written. -/
theorem Reads.exists_context {p : Producer} (h : Reads E plan ref p ty) :
    ∃ context, StaticContext plan context ∧
      ∃ v, resolveRef E plan ref context = .ok (.value v) := by
  obtain ⟨source, rest, path, hcap, htarget, hsegs, hbinary⟩ := h.target
  have hstatic {v : EnsembleValue} (hv : v.hasType ty = true) :
      StaticContext plan (Function.update (fun _ => none) p.key (some v)) := by
    intro key w hw
    by_cases hkey : key = p.key
    · rw [hkey, Function.update_self] at hw
      obtain rfl := Option.some.inj hw
      exact ⟨p, h.writer, hkey.symm, ty, h.static, hv⟩
    · rw [Function.update_of_ne hkey] at hw
      cases hw
  have hresolve {v w : EnsembleValue}
      (hread : readValue E plan.steps ref source rest path v = .ok (.value w)) :
      resolveRef E plan ref (Function.update (fun _ => none) p.key (some v)) = .ok (.value w) := by
    refine bind_eq_ok.mpr ⟨_, okOr_eq_ok.mpr hcap, bind_eq_ok.mpr ⟨_, htarget, ?_⟩⟩
    dsimp only
    rw [Function.update_self]
    exact hread
  cases ty with
  | json =>
    cases path with
    | none => exact ⟨_, hstatic (v := .json .null) rfl, _, hresolve rfl⟩
    | some text =>
      refine ⟨_, hstatic (v := .json (nested (pathSegments text))) rfl, .json .null, hresolve ?_⟩
      simp only [readValue, projectRef, projectJsonPath_nested (hsegs text rfl)]
  | binary =>
    obtain ⟨rfl, hedge⟩ := hbinary rfl
    refine ⟨_, hstatic (v := .binary [] "" none none) rfl, _, hresolve (if_pos hedge)⟩

/-- What is not declared is read as a whole or by a single field. -/
theorem refTarget_of_undeclared (hcap : refCaptures E ref = some (source, rest))
    (hinp : source ≠ "inputs") (hdecl : outputsDeclOf plan.steps source = none)
    (hshape : refShapeOk E plan.steps ref = true) :
    refTarget plan.steps ref source rest = .ok (source, rest) ∧
      ∀ text ∈ rest, ∀ seg ∈ pathSegments text, seg ≠ "" := by
  have hdot : rest.any hasDot = false := by simpa [refShapeOk, hcap, hinp, hdecl] using hshape
  refine ⟨?_, fun text htext seg hseg => ?_⟩
  · rw [refTarget, if_neg hinp, hdecl, hdot]
    rfl
  · obtain rfl := Option.mem_def.mp htext
    rw [pathSegments_of_noDot hdot, List.mem_singleton] at hseg
    rw [hseg]
    exact ne_empty_of_refCaptures hcap

/-- A reference to the request root reads it, if its shape is good. -/
theorem reads_root (hcap : refCaptures E ref = some ("request", rest))
    (hstep : outputsDeclOf plan.steps "request" = none)
    (hshape : refShapeOk E plan.steps ref = true) : Reads E plan ref .root .json := by
  obtain ⟨htarget, hsegs⟩ := refTarget_of_undeclared hcap (by decide) hstep hshape
  exact ⟨mem_producers.mpr (.inl rfl), rfl, "request", rest, rest, hcap, htarget, hsegs,
    fun hty => absurd hty (by decide)⟩

theorem mem_of_findStep {name : String} {step : EnsembleStep}
    (h : findStep steps name = some step) : step ∈ steps ∧ step.name = name :=
  ⟨List.mem_of_find?_eq_some h, by simpa using List.find?_some h⟩

/-- A reference of a static type reads a writer of that type, if its shape is good. -/
theorem reads_of_refType (h : RefType E plan.steps plan.inputsDecl ref ty)
    (hshape : refShapeOk E plan.steps ref = true) : ∃ p, Reads E plan ref p ty := by
  cases h with
  | @input rest decl d hcap hdecl hget hwhole =>
    have hkeys : headOf rest ∈ inputNames plan := by
      simp [inputNames, hdecl, IndexMap.mem_keys_of_get? hget]
    refine ⟨.input (headOf rest), mem_producers.mpr (.inr (.inl ⟨_, hkeys, rfl⟩)), ?_,
      "inputs", rest, rest.bind afterFirstSegment, hcap, rfl, ?_, fun hty => ⟨?_, rfl⟩⟩
    · simp [Producer.ty, hdecl, hget]
    · exact all_pathSegments.mp (by simpa [refShapeOk, hcap] using hshape)
    · cases rest with
      | none => rfl
      | some r => exact afterFirstSegment_of_noDot (hwhole hty)
  | @undeclared source rest src hcap hreq hinp hfind hout =>
    obtain ⟨hmem, rfl⟩ := mem_of_findStep hfind
    have hdecl : outputsDeclOf plan.steps src.name = none := by simp [outputsDeclOf, hfind, hout]
    obtain ⟨htarget, hsegs⟩ := refTarget_of_undeclared hcap hinp hdecl hshape
    have hwriter : Producer.step src.name ∈ stepProducers src :=
      mem_stepProducers.mpr (.inl ⟨hout, rfl⟩)
    exact ⟨.step src.name, mem_producers.mpr (.inr (.inr ⟨src, hmem, hwriter⟩)), rfl,
      src.name, rest, rest, hcap, htarget, hsegs, fun hty => absurd hty (by decide)⟩
  | @output source name src decl d hcap hreq hinp hfind hout hget hwhole =>
    obtain ⟨hmem, rfl⟩ := mem_of_findStep hfind
    have hdecl : outputsDeclOf plan.steps src.name = some decl := by
      simp [outputsDeclOf, hfind, hout]
    have hwriter : Producer.output src.name (firstSegment name) ∈ stepProducers src :=
      mem_stepProducers.mpr (.inr ⟨decl, hout, _, IndexMap.mem_keys_of_get? hget, rfl⟩)
    refine ⟨.output src.name (firstSegment name),
      mem_producers.mpr (.inr (.inr ⟨src, hmem, hwriter⟩)), ?_,
      src.name, some name, afterFirstSegment name, hcap, ?_, ?_, fun hty => ⟨?_, ?_⟩⟩
    · simp [Producer.ty, hdecl, hget]
    · rw [refTarget, if_neg hinp, hdecl]
      rfl
    · exact all_pathSegments.mp (by simpa [refShapeOk, hcap, hinp, hdecl] using hshape)
    · exact afterFirstSegment_of_noDot (hwhole hty)
    · simp [declaredBinaryEdge, hdecl, hget, hty]

end

/-! ### The references of an accepted plan -/

section

variable {E : Externals} {order : IterOrder String} {set : EnsembleDagSet} {plan : EnsemblePlan}
  {ref : String}

/-- A reference of a step is the request root, or has a static type. -/
theorem Loaded.refType (h : Loaded E order plan) {step : EnsembleStep} (hstep : step ∈ plan.steps)
    (href : ref ∈ step.inputs.values) :
    (∃ rest, refCaptures E ref = some ("request", rest)) ∨
      ∃ ty, RefType E plan.steps plan.inputsDecl ref ty := by
  obtain ⟨i, hi⟩ := List.mem_iff_getElem?.mp hstep
  obtain ⟨env, -, hanalyze, -, -⟩ := h.exists_cond hi
  simp only [analyzeStep, bind_eq_ok, pure_eq_ok] at hanalyze
  obtain ⟨_, -, env', hfold, _, -, rfl⟩ := hanalyze
  refine foldlM_of_mem (P := fun _ => (∃ rest, refCaptures E ref = some ("request", rest)) ∨
    ∃ ty, RefType E plan.steps plan.inputsDecl ref ty) href ?_ (fun _ _ _ _ _ hs => hs) hfold
  intro s t hst
  obtain ⟨-, -, hrequest⟩ | ⟨ty, htype, -⟩ := refType_of_analyzeRef hst
  · exact .inl hrequest
  · exact .inr ⟨ty, htype⟩

/-- A multi-sink output has a static type. -/
theorem refType_of_checkOutputRef {steps : List EnsembleStep}
    {inputsDecl : Option (IndexMap String InputDecl)} {name : String}
    (h : checkOutputRef E steps inputsDecl (name, ref) = .ok ()) :
    ∃ ty, RefType E steps inputsDecl ref ty := by
  simp only [checkOutputRef, bind_eq_ok, okOr_eq_ok, Prod.exists] at h
  obtain ⟨_, -, source, rest, hcap, h⟩ := h
  split at h
  · cases h
  · rename_i hreq
    split at h
    · rename_i hinp
      subst hinp
      simp only [bind_eq_ok, okOr_eq_ok] at h
      obtain ⟨_, -, decl, hdecl, d, hd, hwhole⟩ := h
      exact ⟨d.ty, .input hcap hdecl hd fun hty => by simpa [hty] using hwhole⟩
    · rename_i hinp
      simp only [bind_eq_ok, okOr_eq_ok] at h
      obtain ⟨src, hsrc, h⟩ := h
      cases hout : src.outputsDecl with
      | none => exact ⟨.json, .undeclared hcap hreq hinp hsrc hout⟩
      | some decl =>
        simp only [hout, bind_eq_ok, okOr_eq_ok] at h
        obtain ⟨r, rfl, d, hd, hwhole⟩ := h
        exact ⟨d.ty, .output hcap hreq hinp hsrc hout hd fun hty => by simpa [hty] using hwhole⟩

theorem checkOutputRef_of_parse (h : parseEnsembleSet E order set = .ok plan)
    {outputs : IndexMap String String} (houtputs : plan.outputs = some outputs) :
    ∀ e ∈ outputs.entries, checkOutputRef E plan.steps plan.inputsDecl e = .ok () := by
  simp only [parseEnsembleSet, bind_eq_ok, Prod.exists] at h
  obtain ⟨steps, -, _, -, _, -, outputStep, outputField, -, _, -, types, -, conditionalRefs, -, _,
    hrules, _, -, _, -, chains, -, _, -, _, -, layers, -, depKeys, -, h⟩ := h
  obtain rfl := pure_eq_ok.mp h
  change set.outputs = some outputs at houtputs
  simp only [validateOutputsRules, houtputs, bind_eq_ok] at hrules
  obtain ⟨_, -, _, hforM, -⟩ := hrules
  exact forM_eq_ok.mp hforM

/-- **What resolves.** A reference of an accepted plan resolves to a value in some context of the
static types exactly when its shape is good; otherwise it resolves to a value in no context at
all. -/
theorem resolvable_iff_refShapeOk (E : Externals) (order : IterOrder String) (set : EnsembleDagSet)
    (plan : EnsemblePlan) (hplan : parseEnsembleSet E order set = .ok plan) (ref : String)
    (href : IsReference plan ref) :
    ((∃ context, StaticContext plan context ∧ ∃ v, resolveRef E plan ref context = .ok (.value v)) ↔
      refShapeOk E plan.steps ref = true) ∧
    (refShapeOk E plan.steps ref = false → ∀ context v,
      resolveRef E plan ref context ≠ .ok (.value v)) := by
  have hloaded := loaded_of_parse hplan
  refine ⟨⟨?_, fun hshape => ?_⟩, fun hshape context v hv => ?_⟩
  · rintro ⟨context, -, v, hv⟩
    exact refShapeOk_of_value hv
  · have htype : (∃ rest, refCaptures E ref = some ("request", rest)) ∨
        ∃ ty, RefType E plan.steps plan.inputsDecl ref ty := by
      rcases href with ⟨step, hstep, href⟩ | ⟨outputs, houtputs, href⟩
      · exact hloaded.refType hstep href
      · obtain ⟨e, he, rfl⟩ := List.mem_map.mp href
        exact .inr (refType_of_checkOutputRef (checkOutputRef_of_parse hplan houtputs e he))
    rcases htype with ⟨rest, hcap⟩ | ⟨ty, htype⟩
    · have hnone : outputsDeclOf plan.steps "request" = none := by
        cases hfind : findStep plan.steps "request" with
        | none => simp [outputsDeclOf, hfind]
        | some s =>
          obtain ⟨hs, hname⟩ := mem_of_findStep hfind
          exact absurd hname (hloaded.dagRules.name_ne s hs).1
      exact (reads_root hcap hnone hshape).exists_context
    · obtain ⟨p, hreads⟩ := reads_of_refType htype hshape
      exact hreads.exists_context
  · exact absurd (refShapeOk_of_value hv) (by simp [hshape])

end

theorem twoStepSet_resolvable : ∃ plan,
    parseEnsembleSet plainExternals .listed (twoStepSet "t") = .ok plan ∧
    ∃ context, StaticContext plan context ∧
      ∃ v, resolveRef plainExternals plan "$s.a" context = .ok (.value v) := by
  obtain ⟨plan, hplan, hmem, hshape⟩ : ∃ plan,
      parseEnsembleSet plainExternals .listed (twoStepSet "t") = .ok plan ∧
        (∃ step ∈ plan.steps, "$s.a" ∈ step.inputs.values) ∧
        refShapeOk plainExternals plan.steps "$s.a" = true := exists_parsed (by decide)
  obtain ⟨hiff, -⟩ :=
    resolvable_iff_refShapeOk plainExternals .listed _ plan hplan "$s.a" (.inl hmem)
  exact ⟨plan, hplan, hiff.mpr hshape⟩

/-- A step without declared outputs, and a step that refers to `ref`; the request has one input. -/
def refersTo (ref : String) (inputs : Option (IndexMap String InputDecl)) : EnsembleDagSet where
  steps := [
    { name := "s", model := "m", inputs := some .empty },
    { name := "t", model := "m", inputs := some (IndexMap.empty.insert "x" ref) }]
  inputs := inputs

/-- The reference is accepted, and resolves to a value in no context. -/
def AcceptedDoomed (set : EnsembleDagSet) (ref : String) : Prop :=
  ∃ plan, parseEnsembleSet plainExternals .listed set = .ok plan ∧
    (∃ step ∈ plan.steps, ref ∈ step.inputs.values) ∧
    ∀ context v, resolveRef plainExternals plan ref context ≠ .ok (.value v)

theorem acceptedDoomed_of_shape {set : EnsembleDagSet} {ref : String}
    (h : ∃ plan, parseEnsembleSet plainExternals .listed set = .ok plan ∧
      (∃ step ∈ plan.steps, ref ∈ step.inputs.values) ∧
      refShapeOk plainExternals plan.steps ref = false) : AcceptedDoomed set ref := by
  obtain ⟨plan, hplan, hmem, hshape⟩ := h
  refine ⟨plan, hplan, hmem, fun context v hv => ?_⟩
  exact absurd (refShapeOk_of_value hv) (by simp [hshape])

/-- Two segments behind a step without declared outputs, and behind the request root; an empty
segment behind a named input. -/
theorem legacy_path_never_resolves :
    AcceptedDoomed (refersTo "$s.a.b" none) "$s.a.b" ∧
    AcceptedDoomed (refersTo "$request.a.b" none) "$request.a.b" ∧
    AcceptedDoomed (refersTo "$inputs.n..a" (some (IndexMap.empty.insert "n" { ty := .json })))
      "$inputs.n..a" :=
  ⟨acceptedDoomed_of_shape (exists_parsed (by decide)),
    acceptedDoomed_of_shape (exists_parsed (by decide)),
    acceptedDoomed_of_shape (exists_parsed (by decide))⟩

end Ensemble

end LiteServer
