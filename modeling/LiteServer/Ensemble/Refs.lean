import LiteServer.Ensemble.Types
import LiteServer.Lib.Checks

/-!
# References

A reference `$source[.rest]` of a configuration is resolved against the runtime context of a
request: a table of values under the root keys `request` and `inputs.NAME`, the names of the steps
without declared outputs, and `step.alias` for the others.

Absence is not an error: a key that is not in the table resolves to `Absent`, and the caller decides
what that means. Everything else a reference can run into (a field of binary data, a projection
that finds nothing) is an error of the request.
-/

namespace LiteServer

namespace Ensemble

open Checks

/-- The runtime context: values under their keys. -/
abbrev Context := String → Option EnsembleValue

/-- Write values under their keys. -/
def putAll (context : Context) (values : List (String × EnsembleValue)) : Context :=
  values.foldl (fun ctx e => Function.update ctx e.1 (some e.2)) context

/-- The result of resolving a reference. -/
inductive ResolvedRef where
  | value (v : EnsembleValue)
  | absent (key : String)
  deriving Repr

/-- The first step with a name. -/
def findStep (steps : List EnsembleStep) (name : String) : Option EnsembleStep :=
  steps.find? (·.name = name)

/-- The declared outputs of the step with a name. -/
def outputsDeclOf (steps : List EnsembleStep) (name : String) :
    Option (IndexMap String StepOutputDecl) :=
  (findStep steps name).bind (·.outputsDecl)

/-- The first segment of what follows the source, empty when nothing does. -/
def headOf (rest : Option String) : String := (rest.map firstSegment).getD ""

/-- The context key a reference is looked up under. -/
def contextKeyForRef (E : Externals) (steps : List EnsembleStep) (ref : String) :
    Except AppError String := do
  let (source, rest) ← okOr (refCaptures E ref) (.config s!"invalid reference: {ref}")
  if source = "inputs" then return "inputs." ++ headOf rest
  match outputsDeclOf steps source with
  | some _ => return source ++ "." ++ headOf rest
  | none => return source

/-- The part of the context a step refers to. -/
def selectCtxKeys (context : Context) (keys : List String) : Context :=
  fun k => if k ∈ keys then context k else none

/-- One segment of a projection. -/
def projectSegment (path : String) (cur : Json) (seg : String) : Except AppError Json := do
  rejectIf (seg = "") (.config s!"empty segment in JSON path '{path}'")
  okOr (cur.get seg) (.config s!"path segment '{seg}' not found in '{path}'")

/-- Follow a dotted path of members; a leading `$.` is dropped. -/
def projectJsonPath (v : Json) (path : String) : Except AppError Json :=
  let path := (stripText "$." path).getD path
  (splitDots path).foldlM (projectSegment path) v

/-- Is the whole reference a declared binary edge: the request root, a named input, or a declared
binary output? -/
def declaredBinaryEdge (steps : List EnsembleStep) (source : String) (rest : Option String) :
    Bool :=
  if source = "request" || source = "inputs" then true
  else
    match outputsDeclOf steps source, rest with
    | some decl, some r => (decl.get? (firstSegment r)).any (·.ty = .binary)
    | _, _ => false

/-- The key of a reference and the JSON path behind it. A step without declared outputs has single
fields only. -/
def refTarget (steps : List EnsembleStep) (ref source : String) (rest : Option String) :
    Except AppError (String × Option String) := do
  if source = "inputs" then
    return ("inputs." ++ headOf rest, rest.bind afterFirstSegment)
  match outputsDeclOf steps source with
  | some _ => return (source ++ "." ++ headOf rest, rest.bind afterFirstSegment)
  | none =>
    rejectIf (rest.any hasDot) (.config (s!"multi-segment path '{ref}' is not supported on " ++
      "legacy steps — declare step.outputs for path projections (R7)"))
    return (source, rest)

/-- The field of a JSON value a reference names. -/
def projectRef (E : Externals) (ref : String) (v : Json) (path : String) :
    Except AppError ResolvedRef :=
  match projectJsonPath v path with
  | .ok field => .ok (.value (.json field))
  | .error _ => .error (.config s!"cannot resolve '{ref}' from {E.jsonText v}")

/-- What a reference makes of the value under its key. -/
def readValue (E : Externals) (steps : List EnsembleStep) (ref source : String)
    (rest jsonPath : Option String) (data : EnsembleValue) : Except AppError ResolvedRef :=
  match data, jsonPath with
  | .binary _ _ _ _, none =>
    if declaredBinaryEdge steps source rest then .ok (.value data)
    else .error (.invalidRequestBody (s!"cannot reference binary step output '{ref}' as a " ++
      "whole; binary values flow only along declared binary inputs/outputs (D8) — root input → " ++
      "first layer or final layer → client"))
  | .binary _ _ _ _, some _ =>
    .error (.invalidRequestBody (s!"cannot extract field '{ref}' from binary data; " ++
      "binary values have no field-level semantics"))
  | .json v, none => .ok (.value (.json v))
  | .json v, some path => projectRef E ref v path
  | .rawJson _, none => .ok (.value data)
  | .rawJson bytes, some path =>
    match E.jsonFromSlice bytes with
    | .ok v => projectRef E ref v path
    | .error e => .error (.internal s!"step output for '{ref}' is not valid JSON: {e}")
  | .envelope _ _, _ => .error (.internal "envelope reached a DAG edge")

/-- Resolve a reference against the context. -/
def resolveRef (E : Externals) (plan : EnsemblePlan) (ref : String) (context : Context) :
    Except AppError ResolvedRef := do
  let (source, rest) ← okOr (refCaptures E ref) (.config s!"invalid reference: {ref}")
  let (key, jsonPath) ← refTarget plan.steps ref source rest
  match context key with
  | none => return .absent key
  | some data => readValue E plan.steps ref source rest jsonPath data

/-! ### Writing -/

theorem putAll_cons (context : Context) (e : String × EnsembleValue)
    (values : List (String × EnsembleValue)) :
    putAll context (e :: values) = putAll (Function.update context e.1 (some e.2)) values :=
  rfl

variable {values : List (String × EnsembleValue)} {context : Context} {key : String}

theorem putAll_of_notMem (h : key ∉ values.map Prod.fst) :
    putAll context values key = context key := by
  induction values generalizing context with
  | nil => rfl
  | cons e values ih =>
    rw [List.map_cons, List.mem_cons, not_or] at h
    rw [putAll_cons, ih h.2, Function.update_of_ne h.1]

theorem mem_of_putAll {v : EnsembleValue} (h : putAll context values key = some v) :
    (key, v) ∈ values ∨ context key = some v := by
  induction values generalizing context with
  | nil => exact .inr h
  | cons e values ih =>
    rw [putAll_cons] at h
    rcases ih h with hmem | hctx
    · exact .inl (List.mem_cons_of_mem e hmem)
    · by_cases hkey : key = e.1
      · subst hkey
        rw [Function.update_self] at hctx
        exact .inl (Option.some.inj hctx ▸ List.mem_cons_self)
      · rw [Function.update_of_ne hkey] at hctx
        exact .inr hctx

theorem isSome_putAll :
    (putAll context values key).isSome = true ↔
      key ∈ values.map Prod.fst ∨ (context key).isSome = true := by
  induction values generalizing context with
  | nil => simp [putAll]
  | cons e values ih =>
    rw [putAll_cons, ih, List.map_cons, List.mem_cons, or_assoc]
    by_cases hkey : key = e.1
    · simp [hkey]
    · simp [hkey]

end Ensemble

end LiteServer
