import LiteServer.Ensemble.Exec
import LiteServer.Ensemble.Loaded
import LiteServer.Ensemble.Outputs

/-!
# Context keys

The runtime context of a call is one flat table. The request root, the declared inputs, the steps
without declared outputs and the declared outputs of the others all write into it, each under its
own key, and nothing but the keys keeps them apart.

The loader makes declared names identifiers and step names distinct and unreserved, which separates
every pair of writers but one: the name of a step is any text. A step without declared outputs that
is named `s.a` or `inputs.n` shares its key with the output `a` of the step `s`, or with the input
`n`.

## Main results

* `context_keys_distinct_iff` — the keys of an accepted plan are distinct exactly when no step has
  such a name, and then the results of a step leave the values of every other writer alone
* `dotted_name_overwrites_output` — an accepted plan where they do not
-/

namespace LiteServer

namespace Ensemble

open Checks

/-! ### The keys of references -/

section

variable {E : Externals}

/-- The context key of a captured reference. -/
def refKey (steps : List EnsembleStep) (source : String) (rest : Option String) : String :=
  if source = "inputs" then "inputs." ++ headOf rest
  else if (outputsDeclOf steps source).isSome then source ++ "." ++ headOf rest
  else source

theorem contextKeyForRef_eq {steps : List EnsembleStep} {ref source : String}
    {rest : Option String} (hcap : refCaptures E ref = some (source, rest)) :
    contextKeyForRef E steps ref = .ok (refKey steps source rest) := by
  rw [contextKeyForRef, hcap, refKey]
  by_cases hinp : source = "inputs"
  · subst hinp
    rfl
  · cases hdecl : outputsDeclOf steps source <;>
      simp [okOr, bind, Except.bind, pure, Except.pure, hinp, hdecl]

theorem refTarget_key {steps : List EnsembleStep} {ref source key : String}
    {rest path : Option String} (h : refTarget steps ref source rest = .ok (key, path)) :
    key = refKey steps source rest := by
  rw [refTarget] at h
  rw [refKey]
  split at h
  · rename_i hinp
    rw [if_pos hinp]
    exact (Prod.mk.inj (pure_eq_ok.mp h)).1.symm
  · rename_i hinp
    rw [if_neg hinp]
    split at h
    · rename_i hdecl
      rw [hdecl]
      exact (Prod.mk.inj (pure_eq_ok.mp h)).1.symm
    · rename_i hdecl
      rw [hdecl]
      obtain ⟨_, -, h⟩ := bind_eq_ok.mp h
      exact (Prod.mk.inj (pure_eq_ok.mp h)).1.symm

end

/-! ### Writers -/

/-- A writer of the context. -/
inductive Producer where
  | root
  | input (name : String)
  | step (name : String)
  | output (step name : String)
  deriving DecidableEq, Repr

/-- The key a writer writes under. -/
def Producer.key : Producer → String
  | .root => "request"
  | .input name => "inputs." ++ name
  | .step name => name
  | .output s name => s ++ "." ++ name

/-- The writers of a step. -/
def stepProducers (s : EnsembleStep) : List Producer :=
  match s.outputsDecl with
  | none => [.step s.name]
  | some decl => decl.keys.map (.output s.name)

/-- The declared input names of a plan. -/
def inputNames (plan : EnsemblePlan) : List String := (plan.inputsDecl.map (·.keys)).getD []

/-- The writers of a plan. -/
def producers (plan : EnsemblePlan) : List Producer :=
  .root :: ((inputNames plan).map .input ++ plan.steps.flatMap stepProducers)

/-- No two writers of a plan share a key. -/
def KeysDistinct (plan : EnsemblePlan) : Prop :=
  ∀ p ∈ producers plan, ∀ q ∈ producers plan, p.key = q.key → p = q

/-- No step without declared outputs is named like a declared output or like a declared input. -/
def NoDottedName (plan : EnsemblePlan) : Prop :=
  ∀ s ∈ plan.steps, s.outputsDecl = none →
    (∀ t ∈ plan.steps, ∀ decl, t.outputsDecl = some decl →
      ∀ a ∈ decl.keys, s.name ≠ t.name ++ "." ++ a) ∧
    ∀ n ∈ inputNames plan, s.name ≠ "inputs." ++ n

/-! ### Keys as texts -/

theorem dot_notMem_of_isIdent {s : String} (h : isIdent s = true) : '.' ∉ s.toList := by
  intro hdot
  rw [isIdent] at h
  split at h
  · rename_i c cs hs
    rw [hs] at hdot
    rw [Bool.and_eq_true, List.all_eq_true] at h
    rcases List.mem_cons.mp hdot with rfl | hcs
    · exact absurd h.1 (by decide)
    · exact absurd (h.2 '.' hcs) (by decide)
  · exact absurd h (by simp)

/-- The last dot of a text splits it in one way. -/
theorem append_dot_inj {s t a b : String} (ha : '.' ∉ a.toList) (hb : '.' ∉ b.toList)
    (h : s ++ "." ++ a = t ++ "." ++ b) : s = t ∧ a = b := by
  have hlist : s.toList ++ '.' :: a.toList = t.toList ++ '.' :: b.toList := by
    simpa [String.toList_append] using congrArg String.toList h
  have hsplit : s.toList = t.toList ∧ a.toList = b.toList := by
    rcases List.append_eq_append_iff.mp hlist with ⟨l, ht, hl⟩ | ⟨l, hs, hl⟩
    · cases l with
      | nil => simp_all
      | cons c l =>
        obtain ⟨rfl, htail⟩ := List.cons.inj hl
        exact absurd (htail ▸ (by simp : '.' ∈ l ++ '.' :: b.toList)) ha
    · cases l with
      | nil => simp_all
      | cons c l =>
        obtain ⟨rfl, htail⟩ := List.cons.inj hl
        exact absurd (htail ▸ (by simp : '.' ∈ l ++ '.' :: a.toList)) hb
  exact ⟨String.toList_inj.mp hsplit.1, String.toList_inj.mp hsplit.2⟩

/-! ### Writers apart -/

section

variable {E : Externals} {order : IterOrder String} {plan : EnsemblePlan}

variable {p : Producer}

theorem mem_producers :
    p ∈ producers plan ↔
    p = .root ∨ (∃ n ∈ inputNames plan, p = .input n) ∨
    ∃ s ∈ plan.steps, p ∈ stepProducers s := by
  simp [producers, eq_comm]

variable {s : EnsembleStep}

theorem mem_stepProducers :
    p ∈ stepProducers s ↔
    (s.outputsDecl = none ∧ p = .step s.name) ∨
    ∃ decl, s.outputsDecl = some decl ∧ ∃ a ∈ decl.keys, p = .output s.name a := by
  rw [stepProducers]
  split <;> simp_all [eq_comm]

theorem Loaded.dot_notMem_alias (h : Loaded E order plan) (hs : s ∈ plan.steps)
    {decl : IndexMap String StepOutputDecl} (hdecl : s.outputsDecl = some decl) {a : String}
    (ha : a ∈ decl.keys) : '.' ∉ a.toList :=
  dot_notMem_of_isIdent (h.alias_ident hs hdecl ha)

theorem Loaded.dot_notMem_input (h : Loaded E order plan) {n : String}
    (hn : n ∈ inputNames plan) : '.' ∉ n.toList := by
  rw [inputNames] at hn
  cases hdecl : plan.inputsDecl with
  | none => simp [hdecl] at hn
  | some decl => exact dot_notMem_of_isIdent (h.input_ident hdecl (by simpa [hdecl] using hn))

/-- Two steps of an accepted plan with one name are one step. -/
theorem Loaded.eq_of_name_eq (h : Loaded E order plan) {t : EnsembleStep} (hs : s ∈ plan.steps)
    (ht : t ∈ plan.steps) (hname : s.name = t.name) : s = t :=
  List.inj_on_of_nodup_map h.dagRules.nodup hs ht hname

/-- A key with a dot is not the key of the request root. -/
theorem request_ne_append_dot (s a : String) : "request" ≠ s ++ "." ++ a := by
  intro h
  have hdot : '.' ∈ ("request" : String).toList := by
    rw [h]
    simp
  exact absurd hdot (by decide)

/-- The key of an input, split at its dot. -/
theorem inputs_append (n : String) : "inputs." ++ n = "inputs" ++ "." ++ n := by
  rw [show ("inputs." : String) = "inputs" ++ "." by decide]

/-- Two writers of an accepted plan with one key are one, when no step has a dotted name. -/
theorem keysDistinct_of_noDottedName (h : Loaded E order plan) (hdot : NoDottedName plan) :
    KeysDistinct plan := by
  -- Keys with a dot are split at the last one; the keys without are the root's and those of steps
  -- without declared outputs, where the loader's rules on names and `hdot` apply.
  intro p hp q hq hkey
  rcases mem_producers.mp hp with rfl | ⟨n, hn, rfl⟩ | ⟨s, hs, hps⟩ <;>
    rcases mem_producers.mp hq with rfl | ⟨m, hm, rfl⟩ | ⟨t, ht, hqt⟩
  · rfl
  · exact absurd (hkey.trans (inputs_append m)) (request_ne_append_dot _ _)
  · rcases mem_stepProducers.mp hqt with ⟨-, rfl⟩ | ⟨decl, hdecl, a, ha, rfl⟩
    · exact absurd hkey.symm (h.dagRules.name_ne t ht).1
    · exact absurd hkey (request_ne_append_dot _ _)
  · exact absurd (hkey.symm.trans (inputs_append n)) (request_ne_append_dot _ _)
  · simp only [Producer.key, inputs_append] at hkey
    rw [(append_dot_inj (h.dot_notMem_input hn) (h.dot_notMem_input hm) hkey).2]
  · rcases mem_stepProducers.mp hqt with ⟨hnone, rfl⟩ | ⟨decl, hdecl, a, ha, rfl⟩
    · exact absurd hkey.symm ((hdot t ht hnone).2 n hn)
    · exact absurd (append_dot_inj (h.dot_notMem_input hn) (h.dot_notMem_alias ht hdecl ha)
        hkey).1.symm (h.dagRules.name_ne t ht).2
  · rcases mem_stepProducers.mp hps with ⟨-, rfl⟩ | ⟨decl, hdecl, a, ha, rfl⟩
    · exact absurd hkey (h.dagRules.name_ne s hs).1
    · exact absurd hkey.symm (request_ne_append_dot _ _)
  · rcases mem_stepProducers.mp hps with ⟨hnone, rfl⟩ | ⟨decl, hdecl, a, ha, rfl⟩
    · exact absurd hkey ((hdot s hs hnone).2 m hm)
    · exact absurd (append_dot_inj (h.dot_notMem_alias hs hdecl ha) (h.dot_notMem_input hm)
        hkey).1 (h.dagRules.name_ne s hs).2
  · rcases mem_stepProducers.mp hps with ⟨hnone, rfl⟩ | ⟨decl, hdecl, a, ha, rfl⟩ <;>
      rcases mem_stepProducers.mp hqt with ⟨hnone', rfl⟩ | ⟨decl', hdecl', b, hb, rfl⟩
    · exact congrArg Producer.step hkey
    · exact absurd hkey ((hdot s hs hnone).1 t ht decl' hdecl' b hb)
    · exact absurd hkey.symm ((hdot t ht hnone').1 s hs decl hdecl a ha)
    · obtain ⟨hname, rfl⟩ := append_dot_inj (h.dot_notMem_alias hs hdecl ha)
        (h.dot_notMem_alias ht hdecl' hb) hkey
      rw [hname]

theorem noDottedName_of_keysDistinct (hkeys : KeysDistinct plan) : NoDottedName plan := by
  intro s hs hnone
  have hmem : Producer.step s.name ∈ producers plan :=
    mem_producers.mpr (.inr (.inr ⟨s, hs, mem_stepProducers.mpr (.inl ⟨hnone, rfl⟩)⟩))
  constructor
  · intro t ht decl hdecl a ha hname
    have ht' : Producer.output t.name a ∈ producers plan := mem_producers.mpr
      (.inr (.inr ⟨t, ht, mem_stepProducers.mpr (.inr ⟨decl, hdecl, a, ha, rfl⟩)⟩))
    exact absurd (hkeys _ hmem _ ht' hname) (by simp)
  · intro n hn hname
    have hn' : Producer.input n ∈ producers plan := mem_producers.mpr (.inr (.inl ⟨n, hn, rfl⟩))
    exact absurd (hkeys _ hmem _ hn' hname) (by simp)

/-! ### The writes of a step -/

/-- A step writes under the keys of its own writers. -/
theorem materializeStepOutputs_keys {step : EnsembleStep} {raw : EnsembleValue}
    {responseMeta : Option StepResponseMeta} {results : StepResults}
    (h : materializeStepOutputs E step raw responseMeta = .ok results) :
    results.values.map Prod.fst = (stepProducers step).map Producer.key := by
  rw [materializeStepOutputs] at h
  cases hdecl : step.outputsDecl with
  | none =>
    rw [hdecl] at h
    obtain rfl := Except.ok.inj h
    rw [stepProducers, hdecl]
    rfl
  | some decl =>
    rw [hdecl] at h
    simp only [bind_eq_ok, pure_eq_ok] at h
    obtain ⟨_, -, values, hvalues, rfl⟩ := h
    have hkeys : List.Forall₂ (· = ·) (values.map Prod.fst)
        (decl.entries.map fun e => step.name ++ "." ++ e.1) := by
      rw [List.forall₂_map_left_iff, List.forall₂_map_right_iff]
      exact (mapM_eq_ok.mp hvalues).flip.imp fun _ _ hout => (materializeOutput_eq_ok hout).1
    rw [List.forall₂_eq_eq_eq] at hkeys
    simpa [stepProducers, hdecl, IndexMap.keys, Producer.key, Function.comp_def] using hkeys

/-- **Context keys.** The writers of an accepted plan have distinct keys exactly when no step
without declared outputs is named like a declared output of a step or like a declared input. The
results of a step then leave the values of all other writers alone. -/
theorem context_keys_distinct_iff (E : Externals) (order : IterOrder String) (set : EnsembleDagSet)
    (plan : EnsemblePlan) (h : parseEnsembleSet E order set = .ok plan) :
    (KeysDistinct plan ↔ NoDottedName plan) ∧
    (NoDottedName plan → ∀ s ∈ plan.steps, ∀ raw responseMeta results,
      materializeStepOutputs E s raw responseMeta = .ok results →
      ∀ p ∈ producers plan, p ∉ stepProducers s →
      ∀ run : Run, (run.store s.name results).context p.key = run.context p.key) := by
  have hloaded := loaded_of_parse h
  refine ⟨⟨noDottedName_of_keysDistinct, keysDistinct_of_noDottedName hloaded⟩, ?_⟩
  intro hdot s hs raw responseMeta results hresults p hp hps run
  refine putAll_of_notMem ?_
  rw [materializeStepOutputs_keys hresults, List.mem_map]
  rintro ⟨q, hq, hkey⟩
  have hqp : q ∈ producers plan := mem_producers.mpr (.inr (.inr ⟨s, hs, hq⟩))
  exact hps (keysDistinct_of_noDottedName hloaded hdot q hqp p hp hkey ▸ hq)

/-- Step names without a dot are enough. -/
theorem noDottedName_of_forall (h : ∀ s ∈ plan.steps, '.' ∉ s.name.toList) : NoDottedName plan := by
  intro s hs _
  constructor
  · intro t _ decl _ a _ hname
    refine h s hs ?_
    rw [hname]
    simp
  · intro n _ hname
    refine h s hs ?_
    rw [hname, inputs_append]
    simp

end

/-! ### With and without a dotted name -/

/-- A step `s` with the output `a`, and a step that refers to it. -/
def twoStepSet (name : String) : EnsembleDagSet where
  steps := [
    { name := "s", model := "m", inputs := some .empty,
      outputs := some (IndexMap.empty.insert "a" ⟨.json, none⟩) },
    { name, model := "m", inputs := some (IndexMap.empty.insert "x" "$s.a") }]

theorem twoStepSet_keys_distinct :
    ∃ plan, parseEnsembleSet plainExternals .listed (twoStepSet "t") = .ok plan ∧
      KeysDistinct plan := by
  obtain ⟨plan, hplan, hdot⟩ : ∃ plan,
      parseEnsembleSet plainExternals .listed (twoStepSet "t") = .ok plan ∧
        ∀ s ∈ plan.steps, '.' ∉ s.name.toList := exists_parsed (by decide)
  exact ⟨plan, hplan, (context_keys_distinct_iff plainExternals .listed _ plan hplan).1.mpr
    (noDottedName_of_forall hdot)⟩

/-- A step named `s.a` writes over the output `a` of the step `s` it refers to. -/
theorem dotted_name_overwrites_output :
    ∃ plan, parseEnsembleSet plainExternals .listed (twoStepSet "s.a") = .ok plan ∧
      Producer.output "s" "a" ∈ producers plan ∧
      ∃ step ∈ plan.steps, Producer.output "s" "a" ∉ stepProducers step ∧
        ∀ raw responseMeta, ∃ results,
          materializeStepOutputs plainExternals step raw responseMeta = .ok results ∧
          ∀ run : Run, (run.store step.name results).context (Producer.output "s" "a").key =
            some raw := by
  obtain ⟨plan, hplan, hmem, step, hstep, hnone, hname⟩ : ∃ plan,
      parseEnsembleSet plainExternals .listed (twoStepSet "s.a") = .ok plan ∧
        Producer.output "s" "a" ∈ producers plan ∧
        ∃ step ∈ plan.steps, step.outputsDecl.isNone = true ∧ step.name = "s.a" :=
    exists_parsed (by decide)
  rw [Option.isNone_iff_eq_none] at hnone
  refine ⟨plan, hplan, hmem, step, hstep, ?_, ?_⟩
  · simp [stepProducers, hnone]
  · intro raw responseMeta
    refine ⟨⟨[(step.name, raw)], responseMeta⟩, by simp [materializeStepOutputs, hnone], ?_⟩
    intro run
    show Function.update run.context step.name (some raw) "s.a" = some raw
    rw [hname, Function.update_self]

end Ensemble

end LiteServer
