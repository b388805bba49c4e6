import LiteServer.Ensemble.Exec
import LiteServer.Ensemble.Loaded

/-!
# Entering a call

What a call starts with: a plan that went through the load pipeline, and a root context. The root
context holds the request under `request`, or every declared input under `inputs.NAME`, save the
optional ones the request left out. It never holds an envelope: an envelope is taken apart at the
entry, or refused.

## Main results

* `enter_eq_ok` — what a call has entered with
* `rootFilled_of_enter` — the keys of the root context
* `optional_of_absent` — the inputs it does without
* `envelopeFree_of_enter` — its values
-/

namespace LiteServer

namespace Ensemble

open Checks

/-! ### The entry -/

variable {E : Externals} {file : PlanFile} {plan : EnsemblePlan} {payload : EnsembleValue}

theorem selectPlan_eq_ok {opts opts' : EnsembleExecOpts}
    (h : selectPlan E file payload opts = .ok (plan, opts')) :
    ∃ selector, selectDagSet file selector = .ok plan := by
  rw [selectPlan.eq_def] at h
  split at h
  · simp only [bind_eq_ok] at h
    obtain ⟨_, hselect, rfl, -⟩ := h
    exact ⟨_, hselect⟩
  · obtain ⟨⟨selector, source⟩, -, h⟩ := bind_eq_ok.mp h
    dsimp only at h
    split at h
    · rename_i hselect
      obtain ⟨rfl, -⟩ := Prod.mk.inj (pure_eq_ok.mp h)
      exact ⟨_, hselect⟩
    · exact absurd h (by simp)
    · exact absurd h (by simp)

/-- The absent inputs of a request root. -/
def RootInputs.absent : RootInputs → List String
  | .single _ => []
  | .named _ absent => absent

variable {context : Context} {call : Call} {frame : CallFrame}

theorem enter_eq_ok (h : enter E call (.ok file) = .ok (frame, context)) :
    ∃ selector tolerate root, selectDagSet file selector = .ok frame.plan ∧
      parseRootInputs E call.payload frame.plan.inputsDecl tolerate = .ok root ∧
      context = rootContext root ∧ frame.absent = root.absent := by
  simp only [enter, bind_eq_ok, Prod.exists, Except.ok.injEq] at h
  obtain ⟨_, -, _, rfl, plan, opts, hplan, root, hroot, rfl, rfl⟩ := h
  obtain ⟨selector, hselect⟩ := selectPlan_eq_ok hplan
  refine ⟨selector, _, root, hselect, hroot, rfl, ?_⟩
  cases root <;> rfl

/-- A call of an accepted file runs a plan that went through the load pipeline. -/
theorem Accepted.loaded (h : Accepted E file)
    (henter : enter E call (.ok file) = .ok (frame, context)) :
    ∃ order, Loaded E order frame.plan := by
  obtain ⟨order, block, hfile⟩ := h
  obtain ⟨_, _, _, hselect, -⟩ := enter_eq_ok henter
  exact ⟨order, loaded_of_select hfile hselect⟩

theorem accepted_single {order : IterOrder String} {set : EnsembleDagSet}
    (h : parseEnsembleSet E order set = .ok plan) : Accepted E (.single plan) := by
  refine ⟨order, { set with }, ?_⟩
  exact bind_eq_ok.mpr ⟨(), rfl, bind_eq_ok.mpr ⟨plan, h, rfl⟩⟩

theorem enter_plain (E : Externals) (h : plan.inputsDecl = none) :
    enter E .plain (.ok (.single plan)) = .ok (.plain plan, plainContext) := by
  have hroot : parseRootInputs E (.json (.object [])) plan.inputsDecl false =
      .ok (.single (.json (.object []))) := by
    rw [h]
    rfl
  simp only [enter, bind_eq_ok, Prod.exists]
  exact ⟨(), rfl, _, rfl, plan, _, rfl, _, hroot, rfl⟩

variable {root : RootInputs}

/-- A DAG without declared inputs takes any payload but an envelope. -/
theorem parseAnonymousRoot_eq_ok (h : parseAnonymousRoot payload = .ok root) :
    ∃ v, root = .single v ∧ v.isEnvelope = false := by
  rw [parseAnonymousRoot.eq_def] at h
  split at h
  · simp only [bind_eq_ok, pure_eq_ok] at h
    obtain ⟨_, -, rfl⟩ := h
    exact ⟨_, rfl, rfl⟩
  · exact absurd h (by simp)
  · exact ⟨_, (Except.ok.inj h).symm, rfl⟩
  · exact ⟨_, (Except.ok.inj h).symm, rfl⟩

/-! ### The keys of the root context -/

/-- The root keys of a context: nothing is missing but the optional inputs in `absent`. -/
structure RootFilled (plan : EnsemblePlan) (absent : List String) (context : Context) : Prop where
  request : plan.inputsDecl = none → (context "request").isSome = true
  input : ∀ decl, plan.inputsDecl = some decl → ∀ name d, decl.get? name = some d →
    (context ("inputs." ++ name)).isSome = true ∨ name ∈ absent ∧ d.optional = true

variable {absent : List String}

theorem RootFilled.putAll (h : RootFilled plan absent context)
    (values : List (String × EnsembleValue)) : RootFilled plan absent (putAll context values) where
  request hnone := isSome_putAll.mpr (.inr (h.request hnone))
  input decl hdecl name d hd := (h.input decl hdecl name d hd).imp_left fun hsome =>
    isSome_putAll.mpr (.inr hsome)

variable {st : IndexMap String EnsembleValue × List String} {name : String} {d : InputDecl}

/-- A declared input is there, is filled in with its default, or is noted as absent. -/
theorem fillDeclared_eq_ok {values : IndexMap String EnsembleValue}
    (h : fillDeclared (values, absent) (name, d) = .ok st) :
    name ∈ values.keys ∧ st = (values, absent) ∨
    name ∉ values.keys ∧ d.required = false ∧
      (∃ v, d.default = some v ∧ st = (values.insert name (.json v), absent)) ∨
    name ∉ values.keys ∧ d.optional = true ∧ st = (values, absent ++ [name]) := by
  rw [fillDeclared.eq_def] at h
  dsimp only at h
  split at h
  · rename_i hcontains
    exact .inl ⟨by simpa [IndexMap.contains] using hcontains, (Except.ok.inj h).symm⟩
  · rename_i hcontains
    have hnotMem : name ∉ values.keys := by simpa [IndexMap.contains] using hcontains
    split at h
    · exact absurd h (by simp)
    · rename_i v hreq hdefault
      exact .inr (.inl ⟨hnotMem, hreq, v, hdefault, (Except.ok.inj h).symm⟩)
    · rename_i hreq hdefault
      refine .inr (.inr ⟨hnotMem, ?_, (Except.ok.inj h).symm⟩)
      simp [InputDecl.optional, hreq, hdefault]

variable {st' : IndexMap String EnsembleValue × List String} {entry : String × InputDecl}

theorem fillDeclared_keeps (h : fillDeclared st entry = .ok st') :
    (∀ name ∈ st.1.keys, name ∈ st'.1.keys) ∧ ∀ name ∈ st.2, name ∈ st'.2 := by
  rcases fillDeclared_eq_ok h with ⟨-, rfl⟩ | ⟨-, -, v, -, rfl⟩ | ⟨-, -, rfl⟩
  · exact ⟨fun _ hn => hn, fun _ hn => hn⟩
  · exact ⟨fun _ hn => IndexMap.mem_keys_insert.mpr (.inr hn), fun _ hn => hn⟩
  · exact ⟨fun _ hn => hn, fun _ hn => List.mem_append_left _ hn⟩

theorem fillDeclared_fills (h : fillDeclared st (name, d) = .ok st') :
    name ∈ st'.1.keys ∨ name ∈ st'.2 ∧ d.optional = true := by
  rcases fillDeclared_eq_ok h with ⟨hmem, rfl⟩ | ⟨-, -, v, -, rfl⟩ | ⟨-, hopt, rfl⟩
  · exact .inl hmem
  · exact .inl (IndexMap.mem_keys_insert.mpr (.inl rfl))
  · exact .inr ⟨List.mem_append_right _ (List.mem_singleton_self name), hopt⟩

variable {tolerate : Bool}

theorem rootFilled_of_parse (h : parseRootInputs E payload plan.inputsDecl tolerate = .ok root) :
    RootFilled plan root.absent (rootContext root) := by
  cases hdecl : plan.inputsDecl with
  | none =>
    rw [hdecl] at h
    refine ⟨fun _ => ?_, fun decl hsome => absurd (hdecl.symm.trans hsome) (by simp)⟩
    obtain ⟨v, rfl, -⟩ := parseAnonymousRoot_eq_ok h
    exact isSome_putAll.mpr (.inl (by simp))
  | some decl =>
    rw [hdecl] at h
    refine ⟨fun hnone => absurd (hdecl.symm.trans hnone) (by simp), ?_⟩
    intro decl' hdecl' name d hd
    obtain rfl := Option.some.inj (hdecl.symm.trans hdecl')
    simp only [parseRootInputs, parseNamedInputs, bind_eq_ok, Prod.exists, pure_eq_ok] at h
    obtain ⟨values, absent, ⟨_, _, -, _, -, _, -, _, -, hfold⟩, rfl⟩ := h
    have hfilled : name ∈ values.keys ∨ name ∈ absent ∧ d.optional = true :=
      foldlM_of_mem
        (IndexMap.mem_of_get? hd) (fun _ _ hstep => fillDeclared_fills hstep)
        (fun _ _ _ _ hstep hP => hP.imp ((fillDeclared_keeps hstep).1 name)
          (And.imp_left ((fillDeclared_keeps hstep).2 name))) hfold
    refine hfilled.imp_left fun hmem => isSome_putAll.mpr (.inl ?_)
    obtain ⟨e, he, rfl⟩ := List.mem_map.mp hmem
    rw [List.map_map]
    exact List.mem_map.mpr ⟨e, he, rfl⟩

theorem rootFilled_of_enter (h : enter E call (.ok file) = .ok (frame, context)) :
    RootFilled frame.plan frame.absent context := by
  obtain ⟨_, _, root, -, hparse, rfl, habsent⟩ := enter_eq_ok h
  rw [habsent]
  exact rootFilled_of_parse hparse

/-- What is absent is an optional input. -/
theorem optional_of_absent (h : enter E call (.ok file) = .ok (frame, context)) :
    ∀ name ∈ frame.absent, ∃ decl d, frame.plan.inputsDecl = some decl ∧
      decl.get? name = some d ∧ d.optional = true := by
  obtain ⟨_, _, root, -, hparse, -, habsent⟩ := enter_eq_ok h
  rw [habsent]
  cases hdecl : frame.plan.inputsDecl with
  | none =>
    rw [hdecl] at hparse
    obtain ⟨v, rfl, -⟩ := parseAnonymousRoot_eq_ok hparse
    exact fun name hname => absurd hname List.not_mem_nil
  | some decl =>
    rw [hdecl] at hparse
    simp only [parseRootInputs, parseNamedInputs, bind_eq_ok, Prod.exists, pure_eq_ok] at hparse
    obtain ⟨values, absent, ⟨_, _, -, _, -, scan, -, _, -, hfold⟩, rfl⟩ := hparse
    have hoptional : ∀ name ∈ absent, ∃ d, decl.get? name = some d ∧ d.optional = true := by
      refine foldlM_invariant (P := fun st : IndexMap String EnsembleValue × List String =>
        ∀ name ∈ st.2, ∃ d, decl.get? name = some d ∧ d.optional = true) ?_ hfold ?_
      · rintro ⟨values, absent⟩ st' ⟨name, d⟩ hentry hstep ih
        rcases fillDeclared_eq_ok hstep with ⟨-, rfl⟩ | ⟨-, -, v, -, rfl⟩ | ⟨-, hopt, rfl⟩
        · exact ih
        · exact ih
        · intro n hn
          rcases List.mem_append.mp hn with hn | hn
          · exact ih n hn
          · obtain rfl := List.mem_singleton.mp hn
            exact ⟨d, IndexMap.get?_eq_some_iff.mpr hentry, hopt⟩
      · exact fun name hname => absurd hname List.not_mem_nil
    intro name hname
    obtain ⟨d, hd, hopt⟩ := hoptional name hname
    exact ⟨decl, d, rfl, hd, hopt⟩

/-! ### The values of the root context -/

/-- No value of the context is an envelope. -/
def EnvelopeFree (context : Context) : Prop := ∀ key v, context key = some v → v.isEnvelope = false

theorem EnvelopeFree.putAll (h : EnvelopeFree context) {values : List (String × EnsembleValue)}
    (hvalues : ∀ e ∈ values, e.2.isEnvelope = false) : EnvelopeFree (putAll context values) := by
  intro key v hv
  rcases mem_of_putAll hv with hmem | hold
  · exact hvalues (key, v) hmem
  · exact h key v hold

theorem envelopeFree_empty : EnvelopeFree fun _ => none := fun _ _ h => absurd h (by simp)

variable {tail : Bytes}

theorem readDeclared_notEnvelope {offset offset' : ℕ} {el : Json} {v : EnsembleValue}
    (h : readDeclared E tail offset name d el = .ok (v, offset')) : v.isEnvelope = false := by
  rw [readDeclared] at h
  split at h
  · simp only [bind_eq_ok] at h
    obtain ⟨_, -, rfl, -⟩ := h
    rfl
  · split at h
    · simp only [bind_eq_ok] at h
      obtain ⟨_, _, -, rfl, -⟩ := h
      rfl
    · simp only [bind_eq_ok] at h
      obtain ⟨_, -, _, _, -, rfl, -⟩ := h
      rfl

theorem scanElement_notEnvelope {decl : IndexMap String InputDecl} {scan scan' : EnvelopeScan}
    {el : Json} (h : scanElement E decl tolerate tail scan el = .ok scan')
    (hscan : ∀ e ∈ scan.values.entries, e.2.isEnvelope = false) :
    ∀ e ∈ scan'.values.entries, e.2.isEnvelope = false := by
  simp only [scanElement, bind_eq_ok] at h
  obtain ⟨name, -, h⟩ := h
  split at h
  · simp only [bind_eq_ok] at h
    obtain ⟨_, -, h⟩ := h
    split at h
    · obtain rfl := pure_eq_ok.mp h
      exact hscan
    · simp only [bind_eq_ok] at h
      obtain ⟨_, _, -, rfl⟩ := h
      exact hscan
  · simp only [bind_eq_ok, pure_eq_ok, Prod.exists] at h
    obtain ⟨v, _, hread, _, -, rfl⟩ := h
    intro e he
    rcases IndexMap.mem_of_mem_insert he with rfl | hold
    · exact readDeclared_notEnvelope hread
    · exact hscan e hold

theorem fillDeclared_notEnvelope (h : fillDeclared st entry = .ok st')
    (hst : ∀ e ∈ st.1.entries, e.2.isEnvelope = false) :
    ∀ e ∈ st'.1.entries, e.2.isEnvelope = false := by
  rcases fillDeclared_eq_ok h with ⟨-, rfl⟩ | ⟨-, -, v, -, rfl⟩ | ⟨-, -, rfl⟩
  · exact hst
  · intro e he
    rcases IndexMap.mem_of_mem_insert he with rfl | hold
    · rfl
    · exact hst e hold
  · exact hst

theorem rootContext_notEnvelope {decl : Option (IndexMap String InputDecl)}
    (h : parseRootInputs E payload decl tolerate = .ok root) : EnvelopeFree (rootContext root) := by
  rw [parseRootInputs.eq_def] at h
  split at h
  · obtain ⟨v, rfl, hv⟩ := parseAnonymousRoot_eq_ok h
    exact envelopeFree_empty.putAll (by simpa using hv)
  · simp only [parseNamedInputs, bind_eq_ok, Prod.exists, pure_eq_ok] at h
    obtain ⟨values, absent, ⟨_, tail, -, inputs, -, scan, hscan, _, -, hfold⟩, rfl⟩ := h
    have hscanned : ∀ e ∈ scan.values.entries, e.2.isEnvelope = false :=
      foldlM_invariant
        (fun _ _ _ _ hstep => scanElement_notEnvelope hstep) hscan
        fun e he => absurd he List.not_mem_nil
    have hvalues : ∀ e ∈ values.entries, e.2.isEnvelope = false :=
      foldlM_invariant
        (fun _ _ _ _ hstep => fillDeclared_notEnvelope hstep) hfold hscanned
    refine envelopeFree_empty.putAll fun e he => ?_
    obtain ⟨e', he', rfl⟩ := List.mem_map.mp he
    exact hvalues e' he'

theorem envelopeFree_of_enter (h : enter E call (.ok file) = .ok (frame, context)) :
    EnvelopeFree context := by
  obtain ⟨_, _, root, -, hparse, rfl, -⟩ := enter_eq_ok h
  exact rootContext_notEnvelope hparse

end Ensemble

end LiteServer
