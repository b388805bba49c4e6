import LiteServer.Ensemble.ContextKeys
import LiteServer.Ensemble.Entry
import Mathlib.Data.List.TakeWhile

/-!
# Input modes

The loader decides for every step of a DAG with declared inputs how its inputs are put together: as
the members of one JSON object, or as the bytes of one binary input. The executor then assembles the
payload in that mode without looking at the values again.

A reference has a static type, read off the declaration it names; a step without declared outputs
counts as JSON. The mode is sound where the value a reference resolves to has the static type. At a
JSON reference the resolver itself refuses binary data. At a binary reference it refuses nothing: it
passes on what the context holds, which is binary data when the declared output wrote it. A step
named like the output shares its key, and a run that stores that step's answer last makes the
assembly meet a value its mode rules out.

## Main results

* `refTypes_of_mode` — the mode of a step fixes the static types of its references
* `RefType.json_value`, `RefType.binary_value` — what references resolve to
* `input_modes_sound_iff` — the modes of an accepted plan are sound in every context that its
  inputs and steps can write, exactly when no binary reference is shadowed
* `shadowed_output_panics` — a run of an accepted plan that panics in the assembly
-/

namespace LiteServer

namespace Ensemble

open Checks

/-! ### Values -/

/-- A step writes a value under a key, from some answer of its worker or its nested call. -/
def Written (E : Externals) (step : EnsembleStep) (key : String) (v : EnsembleValue) : Prop :=
  ∃ raw responseMeta results, materializeStepOutputs E step raw responseMeta = .ok results ∧
    (key, v) ∈ results.values

/-- A context of a plan: the declared inputs have their types, and every value is the request root,
a declared input, or written by a step. -/
structure TypedContext (E : Externals) (plan : EnsemblePlan) (context : Context) : Prop where
  input : ∀ decl, plan.inputsDecl = some decl → ∀ n d, decl.get? n = some d →
    ∀ v, context ("inputs." ++ n) = some v → v.hasType d.ty = true
  written : ∀ key v, context key = some v → key = "request" ∨
    (∃ n ∈ inputNames plan, key = "inputs." ++ n) ∨ ∃ s ∈ plan.steps, Written E s key v

/-- The resolved inputs of a step, in any order. -/
def Resolves (E : Externals) (plan : EnsemblePlan) (context : Context) (step : EnsembleStep)
    (resolved : IndexMap String EnsembleValue) : Prop :=
  resolved.keys.Perm step.inputs.keys ∧ ∀ name v, (name, v) ∈ resolved.entries →
    ∃ ref, (name, ref) ∈ step.inputs.entries ∧ resolveRef E plan ref context = .ok (.value v)

/-- The assembly of a step's payload does not panic, and the values are as its mode says. -/
structure ModeSound (E : Externals) (plan : EnsemblePlan) (i : ℕ) (step : EnsembleStep)
    (resolved : IndexMap String EnsembleValue) : Prop where
  noPanic : ∀ m, assembleStepPayload E step.name resolved step.params (plan.inputMode i) ≠
    .error (.panicked m)
  groupJson : plan.inputMode i = some .groupJson → ∀ v ∈ resolved.values, v.isJsonLike = true
  binary : plan.inputMode i = some .binaryPassThrough →
    (∃ name v, resolved.entries = [(name, v)] ∧ v.isBinary = true) ∧ step.params.isEmpty = true

/-- No step in binary mode refers to a declared output whose key is the name of a step without
declared outputs. -/
def NoShadowedBinary (E : Externals) (plan : EnsemblePlan) : Prop :=
  ∀ i step, plan.steps[i]? = some step → plan.inputMode i = some .binaryPassThrough →
    ∀ ref ∈ step.inputs.values, ∀ source name, refCaptures E ref = some (source, some name) →
      source ≠ "inputs" →
        ∀ t ∈ plan.steps, t.outputsDecl = none → t.name ≠ source ++ "." ++ name

/-! ### Static types of references -/

/-- The static type of a reference of a DAG with declared inputs. -/
inductive RefType (E : Externals) (steps : List EnsembleStep)
    (inputsDecl : Option (IndexMap String InputDecl)) (ref : String) : InputType → Prop
  | input {rest decl d} : refCaptures E ref = some ("inputs", rest) → inputsDecl = some decl →
      decl.get? (headOf rest) = some d → (d.ty = .binary → rest.any hasDot = false) →
      RefType E steps inputsDecl ref d.ty
  | undeclared {source rest src} : refCaptures E ref = some (source, rest) →
      source ≠ "request" → source ≠ "inputs" → findStep steps source = some src →
      src.outputsDecl = none → RefType E steps inputsDecl ref .json
  | output {source name src decl d} : refCaptures E ref = some (source, some name) →
      source ≠ "request" → source ≠ "inputs" → findStep steps source = some src →
      src.outputsDecl = some decl → decl.get? (firstSegment name) = some d →
      (d.ty = .binary → hasDot name = false) → RefType E steps inputsDecl ref d.ty

/-- What a reference of a type does to the mode. -/
def AddsMode (mode mode' : Option InputMode) : InputType → Prop
  | .json => mode ≠ some .binaryPassThrough ∧ mode' = some .groupJson
  | .binary => mode = none ∧ mode' = some .binaryPassThrough

section

variable {E : Externals} {steps : List EnsembleStep}
  {inputsDecl : Option (IndexMap String InputDecl)} {step : EnsembleStep} {env env' : RefEnv}
  {ref : String}

variable {e : AppError}

theorem addJson_mode (h : env.addJson e = .ok env') : AddsMode env.mode env'.mode .json := by
  simp only [RefEnv.addJson, bind_eq_ok, pure_eq_ok] at h
  obtain ⟨_, hmode, rfl⟩ := h
  exact ⟨by simpa using hmode, rfl⟩

theorem addBinary_mode (h : env.addBinary e = .ok env') : AddsMode env.mode env'.mode .binary := by
  simp only [RefEnv.addBinary, bind_eq_ok, pure_eq_ok] at h
  obtain ⟨_, hmode, rfl⟩ := h
  exact ⟨by simpa using hmode, rfl⟩

@[simp]
theorem addCond_mode {name : String} {d : InputDecl} : (env.addCond name d).mode = env.mode := by
  rw [RefEnv.addCond]
  split <;> rfl

/-- A reference to a step adds its type where the inputs are declared. -/
theorem addsMode_of_ite {declared : Bool} {add : Except AppError RefEnv} {ty : InputType}
    (hadd : add = .ok env' → AddsMode env.mode env'.mode ty)
    (h : (if declared then add else .ok env) = .ok env') :
    if declared then AddsMode env.mode env'.mode ty else env'.mode = env.mode := by
  cases declared with
  | true => exact hadd h
  | false => exact congrArg _ (Except.ok.inj h).symm

/-- An accepted reference is the request root or has a type. Where the inputs are declared it adds
its type to the mode; elsewhere no reference fixes a mode. -/
theorem refType_of_analyzeRef (h : analyzeRef E steps inputsDecl step env ref = .ok env') :
    (inputsDecl = none ∧ env'.mode = env.mode ∧
      ∃ rest, refCaptures E ref = some ("request", rest)) ∨
    ∃ ty, RefType E steps inputsDecl ref ty ∧
      if inputsDecl.isSome then AddsMode env.mode env'.mode ty else env'.mode = env.mode := by
  simp only [analyzeRef, bind_eq_ok, okOr_eq_ok, Prod.exists] at h
  obtain ⟨source, rest, hcap, h⟩ := h
  split at h
  · rename_i hreq
    subst hreq
    simp only [bind_eq_ok, pure_eq_ok] at h
    obtain ⟨_, hnone, rfl⟩ := h
    exact .inl ⟨by simpa using hnone, rfl, rest, hcap⟩
  · rename_i hreq
    right
    split at h
    · rename_i hinp
      subst hinp
      simp only [analyzeInputRef, bind_eq_ok, okOr_eq_ok] at h
      obtain ⟨decl, rfl, d, hd, h⟩ := h
      cases hty : d.ty with
      | json =>
        rw [hty] at h
        simp only [bind_eq_ok, pure_eq_ok] at h
        obtain ⟨env₁, hadd, rfl⟩ := h
        refine ⟨.json, hty ▸ .input hcap rfl hd fun hb => ?_, ?_⟩
        · exact absurd (hty.symm.trans hb) (by simp)
        · rw [addCond_mode]
          exact addJson_mode hadd
      | binary =>
        rw [hty] at h
        simp only [bind_eq_ok, pure_eq_ok, rejectIf_eq_ok] at h
        obtain ⟨_, hdot, env₁, hadd, rfl⟩ := h
        refine ⟨.binary, hty ▸ .input hcap rfl hd fun _ => hdot, ?_⟩
        rw [addCond_mode]
        exact addBinary_mode hadd
    · rename_i hinp
      simp only [analyzeStepRef, bind_eq_ok, okOr_eq_ok] at h
      obtain ⟨src, hsrc, h⟩ := h
      cases hout : src.outputsDecl with
      | none =>
        rw [hout] at h
        exact ⟨.json, .undeclared hcap hreq hinp hsrc hout, addsMode_of_ite addJson_mode h⟩
      | some outputs =>
        rw [hout] at h
        simp only [bind_eq_ok, okOr_eq_ok] at h
        obtain ⟨r, rfl, d, hd, h⟩ := h
        cases hty : d.ty with
        | json =>
          rw [hty] at h
          refine ⟨.json, hty ▸ .output hcap hreq hinp hsrc hout hd fun hb => ?_,
            addsMode_of_ite addJson_mode h⟩
          exact absurd (hty.symm.trans hb) (by simp)
        | binary =>
          rw [hty] at h
          simp only [bind_eq_ok, rejectIf_eq_ok] at h
          obtain ⟨_, hdot, h⟩ := h
          exact ⟨.binary, hty ▸ .output hcap hreq hinp hsrc hout hd fun _ => hdot,
            addsMode_of_ite addBinary_mode h⟩

end

/-! ### The mode of a step -/

/-- What a mode says about the types of the references it was computed from, after `mode`. -/
structure ModeTypes (E : Externals) (steps : List EnsembleStep)
    (inputsDecl : Option (IndexMap String InputDecl)) (refs : List String)
    (mode mode' : Option InputMode) : Prop where
  groupJson : mode' = some .groupJson → mode ≠ some .binaryPassThrough ∧
    ∀ ref ∈ refs, RefType E steps inputsDecl ref .json
  binary : mode' = some .binaryPassThrough → (mode = some .binaryPassThrough ∧ refs = []) ∨
    (mode = none ∧ ∃ ref, refs = [ref] ∧ RefType E steps inputsDecl ref .binary)

section

variable {E : Externals} {steps : List EnsembleStep} {step : EnsembleStep}

variable {env : RefEnv}

theorem modeTypes_of_foldlM {decl : IndexMap String InputDecl} {refs : List String} {env' : RefEnv}
    (h : refs.foldlM (analyzeRef E steps (some decl) step) env = .ok env') :
    ModeTypes E steps (some decl) refs env.mode env'.mode := by
  induction refs generalizing env with
  | nil =>
    rw [List.foldlM_nil, pure_eq_ok] at h
    subst h
    refine ⟨fun hmode => ⟨by simp [hmode], fun ref href => absurd href List.not_mem_nil⟩, ?_⟩
    exact fun hmode => .inl ⟨hmode, rfl⟩
  | cons ref refs ih =>
    rw [List.foldlM_cons, bind_eq_ok] at h
    obtain ⟨env₁, hfirst, h⟩ := h
    obtain ⟨hnone, -⟩ | ⟨ty, htype, hadd⟩ := refType_of_analyzeRef hfirst
    · cases hnone
    have hrest := ih h
    cases ty with
    | json =>
      obtain ⟨hmode, hmode₁⟩ := hadd
      refine ⟨fun hgroup => ⟨hmode, List.forall_mem_cons.mpr ⟨htype, (hrest.groupJson hgroup).2⟩⟩,
        fun hbinary => ?_⟩
      rcases hrest.binary hbinary with ⟨hb, -⟩ | ⟨hn, -⟩
      · exact absurd (hmode₁.symm.trans hb) (by simp)
      · exact absurd (hmode₁.symm.trans hn) (by simp)
    | binary =>
      obtain ⟨hmode, hmode₁⟩ := hadd
      refine ⟨fun hgroup => absurd hmode₁ (hrest.groupJson hgroup).1, fun hbinary => ?_⟩
      rcases hrest.binary hbinary with ⟨-, rfl⟩ | ⟨hn, -⟩
      · exact .inr ⟨hmode, ref, rfl, htype⟩
      · exact absurd (hmode₁.symm.trans hn) (by simp)

/-- **The mode of a step fixes the types of its references.** -/
theorem refTypes_of_mode {inputsDecl : Option (IndexMap String InputDecl)}
    (h : analyzeStep E steps inputsDecl step = .ok env) :
    (env.mode = some .groupJson →
      ∀ ref ∈ step.inputs.values, RefType E steps inputsDecl ref .json) ∧
    (env.mode = some .binaryPassThrough → step.params.isEmpty = true ∧
      ∃ ref, step.inputs.values = [ref] ∧ RefType E steps inputsDecl ref .binary) := by
  simp only [analyzeStep, bind_eq_ok, pure_eq_ok] at h
  obtain ⟨_, -, env', hfold, _, hparams, rfl⟩ := h
  cases inputsDecl with
  | none =>
    have hkeep {env env' : RefEnv} {ref : String}
        (hstep : analyzeRef E steps none step env ref = .ok env') : env'.mode = env.mode := by
      obtain ⟨-, hmode, -⟩ | ⟨_, -, hmode⟩ := refType_of_analyzeRef hstep
      · exact hmode
      · exact hmode
    have hnone : env'.mode = none := foldlM_invariant
      (fun _ _ _ _ hstep hs => (hkeep hstep).trans hs) hfold rfl
    exact ⟨fun hg => absurd (hnone.symm.trans hg) (by simp),
      fun hb => absurd (hnone.symm.trans hb) (by simp)⟩
  | some decl =>
    have hmode := modeTypes_of_foldlM hfold
    refine ⟨fun hg => (hmode.groupJson hg).2, fun hb => ⟨?_, ?_⟩⟩
    · simpa [hb] using hparams
    · rcases hmode.binary hb with ⟨hnone, -⟩ | ⟨-, href⟩
      · exact absurd hnone (by simp)
      · exact href

variable {order : IterOrder String} {plan : EnsemblePlan} {i : ℕ}

theorem Loaded.refTypes (h : Loaded E order plan) (hstep : plan.steps[i]? = some step) :
    (plan.inputMode i = some .groupJson →
      ∀ ref ∈ step.inputs.values, RefType E plan.steps plan.inputsDecl ref .json) ∧
    (plan.inputMode i = some .binaryPassThrough → step.params.isEmpty = true ∧
      ∃ ref, step.inputs.values = [ref] ∧ RefType E plan.steps plan.inputsDecl ref .binary) := by
  obtain ⟨types, htypes, hmodes, -⟩ := h.types
  simp only [analyzeStaticTypes, bind_eq_ok] at htypes
  obtain ⟨_, -, htypes⟩ := htypes
  obtain ⟨env, henv, hanalyze⟩ := getElem?_of_mapM htypes hstep
  have hmode : plan.inputMode i = env.mode := by
    rw [EnsemblePlan.inputMode, hmodes, List.getElem?_map, henv]
    rfl
  rw [hmode]
  exact refTypes_of_mode hanalyze

end

/-! ### What references resolve to -/

section

variable {E : Externals} {order : IterOrder String} {plan : EnsemblePlan} {context : Context}
  {ref : String} {v : EnsembleValue}

theorem projectRef_value {w : Json} {path : String}
    (h : projectRef E ref w path = .ok (.value v)) : v.isJsonLike = true := by
  rw [projectRef] at h
  split at h
  · obtain rfl := ResolvedRef.value.inj (Except.ok.inj h)
    rfl
  · exact absurd h (by simp)

variable {source : String} {rest : Option String} {steps : List EnsembleStep} {data : EnsembleValue}

/-- A value that is read is JSON, or the whole of a declared binary edge. -/
theorem readValue_value {path : Option String}
    (h : readValue E steps ref source rest path data = .ok (.value v)) :
    v.isJsonLike = true ∨
      v.isBinary = true ∧ v = data ∧ declaredBinaryEdge steps source rest = true := by
  rw [readValue.eq_def] at h
  split at h
  · split at h
    · rename_i hedge
      obtain rfl := ResolvedRef.value.inj (Except.ok.inj h)
      exact .inr ⟨rfl, rfl, hedge⟩
    · exact absurd h (by simp)
  · exact absurd h (by simp)
  · obtain rfl := ResolvedRef.value.inj (Except.ok.inj h)
    exact .inl rfl
  · exact .inl (projectRef_value h)
  · obtain rfl := ResolvedRef.value.inj (Except.ok.inj h)
    exact .inl rfl
  · split at h
    · exact .inl (projectRef_value h)
    · exact absurd h (by simp)
  · exact absurd h (by simp)

/-- A value without a path behind it is passed on as it is. -/
theorem readValue_whole (h : readValue E steps ref source rest none data = .ok (.value v)) :
    v = data := by
  rw [readValue.eq_def] at h
  split at h
  · split at h
    · exact (ResolvedRef.value.inj (Except.ok.inj h)).symm
    · exact absurd h (by simp)
  · rename_i hpath
    exact absurd hpath (by simp)
  · exact (ResolvedRef.value.inj (Except.ok.inj h)).symm
  · rename_i hpath
    exact absurd hpath (by simp)
  · exact (ResolvedRef.value.inj (Except.ok.inj h)).symm
  · rename_i hpath
    exact absurd hpath (by simp)
  · exact absurd h (by simp)

/-- A reference resolves to what is read of the value under its key. -/
theorem resolveRef_value (hcap : refCaptures E ref = some (source, rest))
    (h : resolveRef E plan ref context = .ok (.value v)) :
    ∃ key path data, refTarget plan.steps ref source rest = .ok (key, path) ∧
      context key = some data ∧
      readValue E plan.steps ref source rest path data = .ok (.value v) := by
  simp only [resolveRef, bind_eq_ok, okOr_eq_ok, hcap, Option.some.injEq, exists_eq_left',
    Prod.exists] at h
  obtain ⟨key, path, htarget, h⟩ := h
  cases hctx : context key with
  | none =>
    rw [hctx] at h
    exact absurd h (by simp)
  | some data =>
    rw [hctx] at h
    exact ⟨key, path, data, htarget, hctx, h⟩

/-- No reference resolves to an envelope. -/
theorem resolveRef_jsonLike_or_binary (h : resolveRef E plan ref context = .ok (.value v)) :
    v.isJsonLike = true ∨ v.isBinary = true := by
  cases hcap : refCaptures E ref with
  | none => simp [resolveRef, hcap, okOr, bind, Except.bind] at h
  | some cap =>
    obtain ⟨key, path, data, -, -, hread⟩ := resolveRef_value hcap h
    exact (readValue_value hread).imp_right fun hb => hb.1

/-- **A JSON reference resolves to JSON.** -/
theorem RefType.json_value (h : RefType E plan.steps plan.inputsDecl ref .json)
    (hctx : TypedContext E plan context) (hres : resolveRef E plan ref context = .ok (.value v)) :
    v.isJsonLike = true := by
  generalize hty : InputType.json = ty at h
  cases h with
  | @input rest decl d hcap hdecl hget _ =>
    obtain ⟨key, path, data, htarget, hdata, hread⟩ := resolveRef_value hcap hres
    obtain ⟨rfl, -⟩ := Prod.mk.inj (pure_eq_ok.mp htarget)
    have htyped := hctx.input decl hdecl _ d hget data hdata
    rcases readValue_value hread with hv | ⟨-, rfl, -⟩
    · exact hv
    · rwa [← hty] at htyped
  | @undeclared source rest src hcap hreq hinp hsrc hout =>
    obtain ⟨key, path, data, -, -, hread⟩ := resolveRef_value hcap hres
    refine (readValue_value hread).resolve_right fun ⟨_, _, hedge⟩ => ?_
    simp [declaredBinaryEdge, hreq, hinp, outputsDeclOf, hsrc, hout] at hedge
  | @output source name src decl d hcap hreq hinp hsrc hout hget _ =>
    obtain ⟨key, path, data, -, -, hread⟩ := resolveRef_value hcap hres
    refine (readValue_value hread).resolve_right fun ⟨_, _, hedge⟩ => ?_
    simp [declaredBinaryEdge, hreq, hinp, outputsDeclOf, hsrc, hout, hget, ← hty] at hedge

theorem firstSegment_of_noDot {s : String} (h : hasDot s = false) : firstSegment s = s := by
  have hall : s.toList.takeWhile (· ≠ '.') = s.toList := by
    rw [List.takeWhile_eq_self_iff]
    intro c hc
    refine decide_eq_true fun hdot => ?_
    subst hdot
    simp [hasDot, hc] at h
  rw [firstSegment, hall, String.ofList_toList]

theorem afterFirstSegment_of_noDot {s : String} (h : hasDot s = false) :
    afterFirstSegment s = none := by
  have hall : s.toList.dropWhile (· ≠ '.') = [] := by
    rw [List.dropWhile_eq_nil_iff]
    intro c hc
    refine decide_eq_true fun hdot => ?_
    subst hdot
    simp [hasDot, hc] at h
  rw [afterFirstSegment, hall]

/-- A declared output has its type. -/
theorem materializeOutput_hasType {step : EnsembleStep} {raw : EnsembleValue}
    {name : String} {d : StepOutputDecl} {out : String × EnsembleValue}
    (h : materializeOutput E step raw (name, d) = .ok out) : out.2.hasType d.ty = true := by
  rw [materializeOutput.eq_def] at h
  dsimp only at h
  split at h
  · rename_i hty
    simp only [bind_eq_ok, pure_eq_ok] at h
    obtain ⟨_, -, rfl⟩ := h
    rw [hty]
    rfl
  · exact absurd h (by simp)
  · rename_i hty
    simp only [bind_eq_ok, pure_eq_ok] at h
    obtain ⟨_, -, _, -, _, -, rfl⟩ := h
    rw [hty]
    rfl
  · rename_i hty
    simp only [bind_eq_ok, pure_eq_ok] at h
    obtain ⟨_, -, rfl⟩ := h
    rw [hty]
    rfl
  · exact absurd h (by simp)
  · exact absurd h (by simp)

/-- A step writes its answer under its name, or its declared outputs with their types. -/
theorem Written.cases {s : EnsembleStep} {key : String} (h : Written E s key v) :
    s.outputsDecl = none ∧ key = s.name ∨
    ∃ decl name d, s.outputsDecl = some decl ∧ (name, d) ∈ decl.entries ∧
      key = s.name ++ "." ++ name ∧ v.hasType d.ty = true := by
  obtain ⟨raw, responseMeta, results, hresults, hmem⟩ := h
  rw [materializeStepOutputs] at hresults
  cases hdecl : s.outputsDecl with
  | none =>
    rw [hdecl] at hresults
    obtain rfl := Except.ok.inj hresults
    exact .inl ⟨rfl, (Prod.mk.inj (List.mem_singleton.mp hmem)).1⟩
  | some decl =>
    rw [hdecl] at hresults
    simp only [bind_eq_ok, pure_eq_ok] at hresults
    obtain ⟨_, -, values, hvalues, rfl⟩ := hresults
    obtain ⟨⟨name, d⟩, hd, hout⟩ := mem_of_mapM hvalues hmem
    exact .inr ⟨decl, name, d, rfl, hd, (materializeOutput_eq_ok hout).1,
      materializeOutput_hasType hout⟩

/-- **A binary reference resolves to binary data**, unless its key is shadowed. -/
theorem RefType.binary_value (h : RefType E plan.steps plan.inputsDecl ref .binary)
    (hloaded : Loaded E order plan) (hctx : TypedContext E plan context)
    (hshadow : ∀ source name, refCaptures E ref = some (source, some name) → source ≠ "inputs" →
      ∀ t ∈ plan.steps, t.outputsDecl = none → t.name ≠ source ++ "." ++ name)
    (hres : resolveRef E plan ref context = .ok (.value v)) : v.isBinary = true := by
  generalize hty : InputType.binary = ty at h
  cases h with
  | @input rest decl d hcap hdecl hget hwhole =>
    obtain ⟨key, path, data, htarget, hdata, hread⟩ := resolveRef_value hcap hres
    obtain ⟨rfl, rfl⟩ := Prod.mk.inj (pure_eq_ok.mp htarget)
    have hpath : rest.bind afterFirstSegment = none := by
      cases rest with
      | none => rfl
      | some r => exact afterFirstSegment_of_noDot (hwhole hty.symm)
    rw [hpath] at hread
    have htyped := hctx.input decl hdecl _ d hget data hdata
    rw [readValue_whole hread]
    rwa [← hty] at htyped
  | undeclared => exact absurd hty (by simp)
  | @output source name src decl d hcap hreq hinp hsrc hout hget hwhole =>
    have hdot : hasDot name = false := hwhole hty.symm
    have hname : '.' ∉ name.toList := by simpa [hasDot] using hdot
    rw [firstSegment_of_noDot hdot] at hget
    obtain ⟨key, path, data, htarget, hdata, hread⟩ := resolveRef_value hcap hres
    rw [refTarget, if_neg hinp, outputsDeclOf, hsrc, Option.bind_some, hout] at htarget
    obtain ⟨rfl, rfl⟩ := Prod.mk.inj (pure_eq_ok.mp htarget)
    rw [Option.bind_some, afterFirstSegment_of_noDot hdot] at hread
    rw [headOf, Option.map_some, Option.getD_some, firstSegment_of_noDot hdot] at hdata
    rw [readValue_whole hread]
    -- The writer of the key is the output the reference names.
    rcases hctx.written _ _ hdata with hroot | ⟨n, hn, hkey⟩ | ⟨t, ht, hwritten⟩
    · exact absurd hroot.symm (request_ne_append_dot _ _)
    · exact absurd (append_dot_inj hname (hloaded.dot_notMem_input hn) hkey).1 hinp
    · rcases hwritten.cases with ⟨hnone, hkey⟩ | ⟨decl', name', d', hdecl', hd', hkey, htyped⟩
      · exact absurd hkey.symm (hshadow source name hcap hinp t ht hnone)
      · obtain ⟨rfl, rfl⟩ := append_dot_inj hname
          (hloaded.dot_notMem_alias ht hdecl' (IndexMap.mem_keys_of_mem hd')) hkey
        have hsrcname : src.name = t.name := by simpa using List.find?_some hsrc
        obtain rfl := hloaded.eq_of_name_eq (List.mem_of_find?_eq_some hsrc) ht hsrcname
        obtain rfl := Option.some.inj (hout.symm.trans hdecl')
        obtain rfl := IndexMap.eq_of_mem (IndexMap.mem_of_get? hget) hd'
        rwa [← hty] at htyped

end

/-! ### The assembly -/

section

variable {E : Externals} {resolved : IndexMap String EnsembleValue} {params : IndexMap String Json}

theorem mem_mergedEntries {e : String × ValueSource} (he : e ∈ mergedEntries resolved params) :
    (∃ v, e.2 = .param v) ∨ ∃ v ∈ resolved.values, e.2 = .input v := by
  rw [mergedEntries, List.mem_insertionSort] at he
  -- Every insertion of a parameter keeps that members are parameters or inputs.
  have hfold : ∀ (l : List (String × Json)) (m : IndexMap String ValueSource),
      (∀ e ∈ m.entries, (∃ v, e.2 = .param v) ∨ ∃ v ∈ resolved.values, e.2 = .input v) →
      ∀ e ∈ (l.foldl (fun m e => m.insert e.1 (ValueSource.param e.2)) m).entries,
        (∃ v, e.2 = .param v) ∨ ∃ v ∈ resolved.values, e.2 = .input v := by
    intro l
    induction l with
    | nil => exact fun _ hm => hm
    | cons p l ih =>
      intro m hm
      refine ih _ fun e he => ?_
      rcases IndexMap.mem_of_mem_insert he with rfl | he
      · exact .inl ⟨p.2, rfl⟩
      · exact hm e he
  refine hfold _ _ (fun e he => ?_) e he
  obtain ⟨e', he', rfl⟩ := List.mem_map.mp he
  exact .inr ⟨e'.2, List.mem_map_of_mem he', rfl⟩

variable (E params) in
theorem assembleGroupJson_eq_ok (h : ∀ v ∈ resolved.values, v.isJsonLike = true) :
    ∃ payload, assembleGroupJson E resolved params = .ok payload := by
  have hbytes : ∀ e ∈ mergedEntries resolved params, ∃ bytes, e.2.bytes E = .ok bytes := by
    intro e he
    rcases mem_mergedEntries he with ⟨v, hv⟩ | ⟨v, hmem, hv⟩
    · exact ⟨_, by rw [hv]; rfl⟩
    · rw [hv]
      have hlike := h v hmem
      cases v with
      | json w => exact ⟨_, rfl⟩
      | rawJson b => exact ⟨_, rfl⟩
      | binary => exact absurd hlike (by simp [EnsembleValue.isJsonLike])
      | envelope => exact absurd hlike (by simp [EnsembleValue.isJsonLike])
  obtain ⟨members, hmembers⟩ := exists_mapM
    (f := fun e : String × ValueSource => do
      return E.keyToVec e.1 ++ [58] ++ (← e.2.bytes E)) fun e he => by
        obtain ⟨bytes, hb⟩ := hbytes e he
        exact ⟨_, by rw [hb]; rfl⟩
  exact ⟨_, bind_eq_ok.mpr ⟨members, hmembers, rfl⟩⟩

variable {stepName : String}

theorem assembleBinaryPassthrough_ne_panicked {name m : String} {v : EnsembleValue}
    (hentries : resolved.entries = [(name, v)]) (hv : v.isBinary = true) :
    assembleBinaryPassthrough stepName resolved params ≠ .error (.panicked m) := by
  have hvalues : resolved.values = [v] := by rw [IndexMap.values, hentries]; rfl
  cases v with
  | binary data ct shape datatype =>
    rw [assembleBinaryPassthrough, hvalues]
    cases hparams : params.isEmpty <;> simp [rejectIf, bind, Except.bind, pure, Except.pure]
  | json | rawJson | envelope => exact absurd hv (by simp [EnsembleValue.isBinary])

/-- Without a mode the values decide, and the assembly does not panic. -/
theorem assembleStepPayload_dynamic {m : String}
    (h : ∀ v ∈ resolved.values, v.isJsonLike = true ∨ v.isBinary = true) :
    assembleStepPayload E stepName resolved params none ≠ .error (.panicked m) := by
  rw [assembleStepPayload]
  split
  · rename_i hcount
    have hnone := List.filter_eq_nil_iff.mp (List.length_eq_zero_iff.mp hcount)
    obtain ⟨payload, hok⟩ := assembleGroupJson_eq_ok E params fun v hv =>
      (h v hv).resolve_right (hnone v hv)
    rw [hok]
    simp
  · split
    · rename_i hone
      rw [Bool.and_eq_true, decide_eq_true_iff, decide_eq_true_iff] at hone
      obtain ⟨⟨name, v⟩, hentries⟩ := List.length_eq_one_iff.mp hone.1
      have hvalues : resolved.values = [v] := by rw [IndexMap.values, hentries]; rfl
      refine assembleBinaryPassthrough_ne_panicked hentries ?_
      cases hb : v.isBinary with
      | true => rfl
      | false => simp [hvalues, hb] at hone
    · simp

end

/-! ### Soundness -/

section

variable {E : Externals} {order : IterOrder String} {plan : EnsemblePlan} {context : Context}
  {i : ℕ} {step : EnsembleStep} {resolved : IndexMap String EnsembleValue}

theorem resolves_of_foldlM
    {f : IndexMap String EnsembleValue → String × String →
      Except AppError (IndexMap String EnsembleValue)}
    (hf : ∀ m e m', f m e = .ok m' →
      ∃ v, resolveRef E plan e.2 context = .ok (.value v) ∧ m' = m.insert e.1 v)
    (h : step.inputs.entries.foldlM f .empty = .ok resolved) :
    Resolves E plan context step resolved := by
  -- The entries so far are those of the references walked so far.
  have hfold : ∀ (l : List (String × String)) (m : IndexMap String EnsembleValue),
      (m.keys ++ l.map Prod.fst).Nodup → ∀ m', l.foldlM f m = .ok m' →
      m'.keys = m.keys ++ l.map Prod.fst ∧ ∀ name v, (name, v) ∈ m'.entries →
        (name, v) ∈ m.entries ∨
          ∃ ref, (name, ref) ∈ l ∧ resolveRef E plan ref context = .ok (.value v) := by
    intro l
    induction l with
    | nil =>
      intro m _ m' hm
      obtain rfl := pure_eq_ok.mp hm
      exact ⟨(List.append_nil _).symm, fun _ _ => .inl⟩
    | cons e l ih =>
      intro m hnodup m' hm
      simp only [List.foldlM_cons, bind_eq_ok] at hm
      obtain ⟨m₁, hm₁, hm⟩ := hm
      obtain ⟨v, hr, rfl⟩ := hf m e m₁ hm₁
      have hnew : e.1 ∉ m.keys := fun hmem =>
        List.disjoint_of_nodup_append hnodup hmem List.mem_cons_self
      have hkeys : (m.insert e.1 v).keys = m.keys ++ [e.1] := by
        rw [IndexMap.insert, dif_neg hnew]
        simp [IndexMap.keys]
      obtain ⟨hkeys', hentries⟩ := ih (m.insert e.1 v)
        (by simpa [hkeys, List.append_assoc] using hnodup) m' hm
      refine ⟨by simp [hkeys', hkeys], fun name w hw => ?_⟩
      rcases hentries name w hw with hold | ⟨ref, hmem, href⟩
      · rcases IndexMap.mem_of_mem_insert hold with heq | hold
        · obtain ⟨rfl, rfl⟩ := Prod.mk.inj heq
          exact .inr ⟨e.2, List.mem_cons_self, hr⟩
        · exact .inl hold
      · exact .inr ⟨ref, List.mem_cons_of_mem e hmem, href⟩
  obtain ⟨hkeys, hentries⟩ := hfold step.inputs.entries .empty step.inputs.nodup resolved h
  refine ⟨.of_eq hkeys, fun name v hv => ?_⟩
  exact (hentries name v hv).resolve_left List.not_mem_nil

/-- The executor resolves inputs in the order of their map. -/
theorem resolves_of_resolveInputs {onAbsent : String → AppError}
    (h : resolveInputs E plan step context onAbsent = .ok resolved) :
    Resolves E plan context step resolved := by
  refine resolves_of_foldlM (fun m e m' hm => ?_) h
  obtain ⟨r, hr, hm⟩ := bind_eq_ok.mp hm
  cases r with
  | absent key => exact absurd hm (by simp)
  | value v => exact ⟨v, hr, (pure_eq_ok.mp hm).symm⟩

variable {v : EnsembleValue}

theorem Resolves.exists_ref (h : Resolves E plan context step resolved) (hv : v ∈ resolved.values) :
    ∃ ref ∈ step.inputs.values,
      resolveRef E plan ref context = .ok (.value v) := by
  obtain ⟨⟨name, w⟩, hmem, rfl⟩ := List.mem_map.mp hv
  obtain ⟨ref, href, hres⟩ := h.2 name w hmem
  exact ⟨ref, List.mem_map_of_mem href, hres⟩

theorem modeSound_of_noShadowedBinary (hloaded : Loaded E order plan)
    (hshadow : NoShadowedBinary E plan) (hctx : TypedContext E plan context)
    (hstep : plan.steps[i]? = some step) (hres : Resolves E plan context step resolved) :
    ModeSound E plan i step resolved := by
  obtain ⟨hgroup, hbinary⟩ := hloaded.refTypes hstep
  cases hmode : plan.inputMode i with
  | none =>
    refine ⟨fun m => ?_, by simp [hmode], by simp [hmode]⟩
    rw [hmode]
    refine assembleStepPayload_dynamic fun v hv => ?_
    obtain ⟨ref, -, href⟩ := hres.exists_ref hv
    exact resolveRef_jsonLike_or_binary href
  | some mode =>
    cases mode with
    | groupJson =>
      have hlike : ∀ v ∈ resolved.values, v.isJsonLike = true := by
        intro v hv
        obtain ⟨ref, hmem, href⟩ := hres.exists_ref hv
        exact (hgroup hmode ref hmem).json_value hctx href
      refine ⟨fun m => ?_, fun _ => hlike, by simp [hmode]⟩
      obtain ⟨payload, hok⟩ := assembleGroupJson_eq_ok E step.params hlike
      rw [hmode, assembleStepPayload, hok]
      simp
    | binaryPassThrough =>
      obtain ⟨hparams, ref, hrefs, htype⟩ := hbinary hmode
      have hlength : resolved.entries.length = 1 := by
        calc resolved.entries.length
          _ = step.inputs.entries.length := by simpa [IndexMap.keys] using hres.1.length_eq
          _ = 1 := by simpa [IndexMap.values] using congrArg List.length hrefs
      obtain ⟨⟨name, v⟩, hentries⟩ := List.length_eq_one_iff.mp hlength
      have hmem : v ∈ resolved.values := by simp [IndexMap.values, hentries]
      obtain ⟨ref', href', hresolve⟩ := hres.exists_ref hmem
      obtain rfl : ref' = ref := by simpa [hrefs] using href'
      have hv : v.isBinary = true := htype.binary_value hloaded hctx
        (fun source name hcap hinp => hshadow i step hstep hmode ref' href' source name hcap hinp)
        hresolve
      refine ⟨fun m => ?_, by simp [hmode], fun _ => ⟨⟨name, v, hentries, hv⟩, hparams⟩⟩
      rw [hmode, assembleStepPayload]
      exact assembleBinaryPassthrough_ne_panicked hentries hv

variable {source name ref : String}

/-- A binary reference names a declared output as a whole, or a declared input. -/
theorem RefType.whole_output (h : RefType E plan.steps plan.inputsDecl ref .binary)
    (hcap : refCaptures E ref = some (source, some name)) (hinp : source ≠ "inputs") :
    hasDot name = false ∧ ∃ decl, outputsDeclOf plan.steps source = some decl := by
  generalize hty : InputType.binary = ty at h
  cases h with
  | input hcap' =>
    rw [hcap] at hcap'
    exact absurd (Prod.mk.inj (Option.some.inj hcap')).1 hinp
  | undeclared => exact absurd hty (by simp)
  | output hcap' _ _ hsrc hout _ hwhole =>
    rw [hcap] at hcap'
    obtain ⟨rfl, hname⟩ := Prod.mk.inj (Option.some.inj hcap')
    obtain rfl := Option.some.inj hname
    exact ⟨hwhole hty.symm, _, by rw [outputsDeclOf, hsrc, Option.bind_some, hout]⟩

/-- The context that holds one value. -/
def soleContext (key : String) (v : EnsembleValue) : Context := fun k =>
  if k = key then some v else none

theorem soleContext_eq_some {key k : String} {w : EnsembleValue}
    (h : soleContext key v k = some w) : k = key ∧ v = w := by
  rw [soleContext] at h
  split at h
  · rename_i hkey
    exact ⟨hkey, Option.some.inj h⟩
  · exact absurd h (by simp)

variable {t : EnsembleStep}

/-- A value that a step writes under a key other than those of the inputs. -/
theorem typedContext_sole (hloaded : Loaded E order plan) (hdot : hasDot name = false)
    (hinp : source ≠ "inputs") (ht : t ∈ plan.steps) (hv : Written E t (source ++ "." ++ name) v) :
    TypedContext E plan (soleContext (source ++ "." ++ name) v) where
  input decl hdecl n d hd w hw := by
    have hn : n ∈ inputNames plan := by
      simpa [inputNames, hdecl] using IndexMap.mem_keys_of_get? hd
    obtain ⟨hkey, -⟩ := soleContext_eq_some hw
    exact absurd (append_dot_inj (hloaded.dot_notMem_input hn) (by simpa [hasDot] using hdot)
      hkey).1.symm hinp
  written key w hw := by
    obtain ⟨rfl, rfl⟩ := soleContext_eq_some hw
    exact .inr (.inr ⟨t, ht, hv⟩)

/-- The answer of a step without declared outputs is written under its name. -/
theorem written_name (hnone : t.outputsDecl = none) (v : EnsembleValue) : Written E t t.name v :=
  ⟨v, none, ⟨[(t.name, v)], none⟩, by rw [materializeStepOutputs, hnone],
    List.mem_singleton_self _⟩

/-- A step in binary mode resolves its input to what is under the key, JSON too. -/
theorem resolves_sole (hrefs : step.inputs.values = [ref])
    (htype : RefType E plan.steps plan.inputsDecl ref .binary)
    (hcap : refCaptures E ref = some (source, some name)) (hinp : source ≠ "inputs") (w : Json) :
    ∃ resolved, resolved.values = [.json w] ∧
      Resolves E plan (soleContext (source ++ "." ++ name) (.json w)) step resolved := by
  obtain ⟨hdot, decl, hdecl⟩ := htype.whole_output hcap hinp
  have htarget : refTarget plan.steps ref source (some name) =
      .ok (source ++ "." ++ name, none) := by
    rw [refTarget, if_neg hinp, hdecl]
    simp [headOf, firstSegment_of_noDot hdot, afterFirstSegment_of_noDot hdot, pure, Except.pure]
  have hresolve : resolveRef E plan ref (soleContext (source ++ "." ++ name) (.json w)) =
      .ok (.value (.json w)) := by
    simp [resolveRef, hcap, okOr, bind, Except.bind, htarget, soleContext, readValue]
  obtain ⟨⟨input, ref'⟩, hentries⟩ : ∃ e, step.inputs.entries = [e] := by
    refine List.length_eq_one_iff.mp ?_
    simpa [IndexMap.values] using congrArg List.length hrefs
  obtain rfl : ref' = ref := by simpa [IndexMap.values, hentries] using hrefs
  refine ⟨⟨[(input, .json w)], List.nodup_singleton _⟩, rfl, ?_, ?_⟩
  · rw [IndexMap.keys, IndexMap.keys, hentries]
    exact .refl _
  · intro name' v hmem
    obtain ⟨rfl, rfl⟩ := Prod.mk.inj (List.mem_singleton.mp hmem)
    exact ⟨ref', by rw [hentries]; exact List.mem_singleton_self _, hresolve⟩

theorem noShadowedBinary_of_modeSound (hloaded : Loaded E order plan)
    (hsound : ∀ context, TypedContext E plan context → ∀ i step, plan.steps[i]? = some step →
      ∀ resolved, Resolves E plan context step resolved → ModeSound E plan i step resolved) :
    NoShadowedBinary E plan := by
  intro i step hstep hmode ref href source name hcap hinp t ht hnone hname
  obtain ⟨-, ref', hrefs, htype⟩ := (hloaded.refTypes hstep).2 hmode
  obtain rfl : ref = ref' := by simpa [hrefs] using href
  have hctx := typedContext_sole hloaded (htype.whole_output hcap hinp).1 hinp ht
    (hname ▸ written_name hnone (.json (.object [])))
  obtain ⟨resolved, hvalues, hres⟩ := resolves_sole hrefs htype hcap hinp (.object [])
  obtain ⟨⟨input, v, hone, hv⟩, -⟩ := (hsound _ hctx i step hstep resolved hres).binary hmode
  obtain rfl : v = .json (.object []) := by simpa [IndexMap.values, hone] using hvalues
  exact absurd hv (by simp [EnsembleValue.isBinary])

end

/-- **Input modes are sound.** For an accepted plan: in every context that its inputs and steps can
write, whatever order the inputs of a step are walked in, resolved inputs fit the mode of their step
and are assembled without a panic, exactly when no binary reference is shadowed. -/
theorem input_modes_sound_iff (E : Externals) (order : IterOrder String) (set : EnsembleDagSet)
    (plan : EnsemblePlan) (hplan : parseEnsembleSet E order set = .ok plan) :
    (∀ context, TypedContext E plan context → ∀ i step, plan.steps[i]? = some step →
      ∀ resolved, Resolves E plan context step resolved → ModeSound E plan i step resolved) ↔
    NoShadowedBinary E plan := by
  have hloaded := loaded_of_parse hplan
  constructor
  · exact noShadowedBinary_of_modeSound hloaded
  · intro hshadow context hctx i step hstep resolved hres
    exact modeSound_of_noShadowedBinary hloaded hshadow hctx hstep hres

/-! ### With and without a shadowing step -/

/-- A step `s` with a binary output `a`, a second step, and a step `t` that takes the output. -/
def binaryOutputSet (name : String) : EnsembleDagSet where
  steps := [
    { name := "s", model := "m", inputs := some .empty,
      outputs := some (IndexMap.empty.insert "a" ⟨.binary, none⟩) },
    { name, model := "m", inputs := some .empty },
    { name := "t", model := "m", inputs := some (IndexMap.empty.insert "x" "$s.a") }]
  inputs := some .empty

/-- The plan in which nothing shadows the output. -/
def binaryOutputPlan : EnsemblePlan :=
  (parseEnsembleSet plainExternals .listed (binaryOutputSet "u")).toOption.get (by decide)

/-- Binary data in the output `a` of `s` is what `t` is given. -/
theorem binaryOutputPlan_sound :
    parseEnsembleSet plainExternals .listed (binaryOutputSet "u") = .ok binaryOutputPlan ∧
    binaryOutputPlan.inputMode 2 = some .binaryPassThrough ∧
    ∃ context step resolved, TypedContext plainExternals binaryOutputPlan context ∧
      binaryOutputPlan.steps[2]? = some step ∧
      resolveInputs plainExternals binaryOutputPlan step context (fun _ => .internal "") =
        .ok resolved ∧
      ModeSound plainExternals binaryOutputPlan 2 step resolved := by
  have hplan : parseEnsembleSet plainExternals .listed (binaryOutputSet "u") =
      .ok binaryOutputPlan := rfl
  let v : EnsembleValue := .binary [1] "image/png" none none
  have hnames : ∀ s ∈ binaryOutputPlan.steps, '.' ∉ s.name.toList := by decide
  have hshadow : NoShadowedBinary plainExternals binaryOutputPlan := by
    intro i step _ _ ref _ source name _ _ t ht _ hname
    refine hnames t ht ?_
    rw [hname]
    simp
  have hwritten : Written plainExternals ((binaryOutputPlan.steps[0]?).get rfl)
      ("s" ++ "." ++ "a") v :=
    ⟨v, none, ⟨[("s.a", v)], none⟩, rfl, List.mem_singleton_self _⟩
  have hctx := typedContext_sole (loaded_of_parse hplan) (by decide) (by decide)
    (List.mem_of_getElem? (Option.some_get _).symm) hwritten
  have hresolve : resolveInputs plainExternals binaryOutputPlan
      ((binaryOutputPlan.steps[2]?).get rfl) (soleContext ("s" ++ "." ++ "a") v)
      (fun _ => .internal "") = .ok (IndexMap.empty.insert "x" v) := rfl
  exact ⟨hplan, rfl, _, _, _, hctx, rfl, hresolve,
    (input_modes_sound_iff plainExternals .listed _ _ hplan).mpr hshadow _ hctx 2 _ rfl _
      (resolves_of_resolveInputs hresolve)⟩

/-- The plan in which the second step is named like the output. -/
def shadowedPlan : EnsemblePlan :=
  (parseEnsembleSet plainExternals .listed (binaryOutputSet "s.a")).toOption.get (by decide)

/-- A call with an envelope that carries no input. -/
def envelopeCall : Call :=
  { Call.plain with payload := .json (.object [("inputs", .array [])]) }

/-- A run: `s` answers with binary data, then the second step with an empty object, then `t` is
executed. -/
def binaryOutputRun : List RunAction :=
  [.advance, .build (some "1"), .build (some "1"), .poll 0, .poll 1,
    .complete 0 (.answering { data := [1], mediaType := "image/png" }),
    .complete 1 (.answering {}), .advance, .build (some "1"), .poll 2,
    .complete 2 (.answering {})]

/-- The loader accepts the plan, with `t` in binary mode. The answer of the second step stands under
the key of the output, `t` resolves its input to it, and the assembly panics: in some context of the
plan, and at the end of a run. -/
theorem shadowed_output_panics :
    parseEnsembleSet plainExternals .listed (binaryOutputSet "s.a") = .ok shadowedPlan ∧
    shadowedPlan.inputMode 2 = some .binaryPassThrough ∧
    (∃ context step resolved, TypedContext plainExternals shadowedPlan context ∧
      shadowedPlan.steps[2]? = some step ∧
      Resolves plainExternals shadowedPlan context step resolved ∧
      assembleStepPayload plainExternals step.name resolved step.params
        (shadowedPlan.inputMode 2) = .error (unreachablePanic "")) ∧
    ∃ context, enter plainExternals envelopeCall (.ok (.single shadowedPlan)) =
        .ok (.plain shadowedPlan, context) ∧
      ∃ s, (Run.system plainExternals (.plain shadowedPlan) context).Reach s ∧
        s.result = some (.error (unreachablePanic "")) := by
  have hplan : parseEnsembleSet plainExternals .listed (binaryOutputSet "s.a") =
      .ok shadowedPlan := rfl
  refine ⟨hplan, rfl, ?_, rootContext (.named .empty []), rfl, ?_⟩
  · have hwritten : Written plainExternals ((shadowedPlan.steps[1]?).get rfl) ("s" ++ "." ++ "a")
        (.json (.object [])) :=
      written_name rfl _
    have hctx := typedContext_sole (loaded_of_parse hplan) (by decide) (by decide)
      (List.mem_of_getElem? (Option.some_get _).symm) hwritten
    have hresolve : resolveInputs plainExternals shadowedPlan ((shadowedPlan.steps[2]?).get rfl)
        (soleContext ("s" ++ "." ++ "a") (.json (.object []))) (fun _ => .internal "") =
          .ok (IndexMap.empty.insert "x" (.json (.object []))) := rfl
    exact ⟨_, _, _, hctx, rfl, resolves_of_resolveInputs hresolve, rfl⟩
  · have hrun : ((Run.system plainExternals (.plain shadowedPlan)
        (rootContext (.named .empty []))).runUnder (fun _ _ => True)
          (Run.start (.plain shadowedPlan) (rootContext (.named .empty [])))
          binaryOutputRun).map (·.result) = some (some (.error (unreachablePanic ""))) := rfl
    obtain ⟨s, hs, hresult⟩ := Option.map_eq_some_iff.mp hrun
    exact ⟨s, StepSystem.reachUnder_of_runUnder .init hs, hresult⟩

end Ensemble

end LiteServer
