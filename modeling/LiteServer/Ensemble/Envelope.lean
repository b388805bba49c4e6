import LiteServer.Ensemble.Config
import Mathlib.Algebra.Order.Ring.Nat

/-!
# The request root

`parseRootInputs` is the entry of a run. A DAG without declared inputs takes the payload as it is,
under the key `request`. A DAG with declared inputs takes a KServe envelope: a JSON head whose
`inputs` array names the inputs in order, and a binary tail that the binary ones are cut from, one
after the other.
-/

namespace LiteServer

namespace Ensemble

open Checks

/-- The request root: the payload, or the named inputs and those that are absent. -/
inductive RootInputs where
  | single (v : EnsembleValue)
  | named (values : IndexMap String EnsembleValue) (absent : List String)

/-- The media type of bytes that have no other. -/
def octetStream : String := "application/octet-stream"

/-- Decode a `{"$binary_b64": …, "content_type": …}` marker. -/
def decodeBinaryMarker (E : Externals) (v : Json) : Except AppError (Bytes × String) := do
  let obj ← okOr v.asObject (.invalidRequestBody
    "binary input data must be a \x7b\"$binary_b64\": ...\x7d marker object")
  let b64 ← okOr ((obj.lookup "$binary_b64").bind Json.asStr) (.invalidRequestBody
    "binary marker object is missing the \"$binary_b64\" field")
  match E.base64Decode b64 with
  | .error e => .error (.invalidRequestBody s!"invalid base64 in $binary_b64 marker: {e}")
  | .ok bytes =>
    return (bytes, ((obj.lookup "content_type").bind Json.asStr).getD octetStream)

/-- `parameters.binary_data_size` of an envelope element. -/
def binaryDataSize (el : Json) : Option UInt64 :=
  ((el.get "parameters").bind (·.get "binary_data_size")).bind Json.asU64

/-- The next `size` bytes of the tail, and the offset behind them. -/
def sliceTail (tail : Bytes) (offset : ℕ) (name : String) (size : UInt64) :
    Except AppError (Bytes × ℕ) := do
  let stop := offset + size.toNat
  rejectIf (stop ≥ 2 ^ 64) (.invalidRequestBody "binary tail size overflow")
  rejectIf (stop > tail.length) (.invalidRequestBody (s!"envelope input '{name}': " ++
    s!"binary_data_size {size.toNat} overruns the binary tail (R18)"))
  return ((tail.drop offset).take size.toNat, stop)

/-- The inputs read so far, and the offset into the tail. -/
structure EnvelopeScan where
  values : IndexMap String EnsembleValue := IndexMap.empty
  offset : ℕ := 0

/-- The value of a declared input, and the offset behind it. -/
def readDeclared (E : Externals) (tail : Bytes) (offset : ℕ) (name : String) (d : InputDecl)
    (el : Json) : Except AppError (EnsembleValue × ℕ) :=
  match d.ty with
  | .json => do
    let data ← okOr (el.get "data")
      (.invalidRequestBody s!"envelope input '{name}' (type json) is missing 'data'")
    return (.json data, offset)
  | .binary =>
    match el.get "data" with
    | some marker => do
      let (bytes, ct) ← decodeBinaryMarker E marker
      return (.binary bytes ct none none, offset)
    | none => do
      let size ← okOr (binaryDataSize el) (.invalidRequestBody (s!"envelope input '{name}' " ++
        "(type binary) needs parameters.binary_data_size or $binary_b64 data (R18)"))
      let (slice, offset) ← sliceTail tail offset name size
      return (.binary slice (d.contentType.getD octetStream) d.shape d.datatype, offset)

/-- One element of the `inputs` array. -/
def scanElement (E : Externals) (decl : IndexMap String InputDecl) (tolerateUnknown : Bool)
    (tail : Bytes) (scan : EnvelopeScan) (el : Json) : Except AppError EnvelopeScan := do
  let name ← okOr ((el.get "name").bind Json.asStr)
    (.invalidRequestBody "envelope input element is missing 'name'")
  match decl.get? name with
  | none =>
    rejectIf (!tolerateUnknown) (.invalidRequestBody (s!"envelope declares unknown input " ++
      s!"'{name}' (not in ensemble.inputs, R18)"))
    match binaryDataSize el with
    | none => return scan
    | some size =>
      let (_, offset) ← sliceTail tail scan.offset name size
      return { scan with offset }
  | some d =>
    let (value, offset) ← readDeclared E tail scan.offset name d el
    rejectIf (scan.values.contains name)
      (.invalidRequestBody s!"envelope input '{name}' appears more than once (R18)")
    return { values := scan.values.insert name value, offset }

/-- A declared input the envelope may not have carried. -/
def fillDeclared (st : IndexMap String EnsembleValue × List String) (entry : String × InputDecl) :
    Except AppError (IndexMap String EnsembleValue × List String) :=
  let (values, absent) := st
  let (name, d) := entry
  if values.contains name then .ok st
  else match d.required, d.default with
    | true, _ =>
      .error (.invalidRequestBody s!"envelope is missing required input '{name}' (R18)")
    | false, some v => .ok (values.insert name (.json v), absent)
    | false, none => .ok (values, absent ++ [name])

/-- The head and the tail of an envelope. -/
def splitPayload (payload : EnsembleValue) : Except AppError (Json × Bytes) :=
  match payload with
  | .json v => .ok (v, [])
  | .envelope head tail => .ok (head, tail)
  | .binary _ _ _ _ | .rawJson _ => .error (.invalidRequestBody ("this ensemble declares named " ++
      "inputs — requests must be a KServe envelope (JSON with inputs[], or JSON head + binary " ++
      "tail); raw binary bodies have no envelope semantics (R18)"))

/-- The named inputs of an envelope. -/
def parseNamedInputs (E : Externals) (decl : IndexMap String InputDecl) (tolerateUnknown : Bool)
    (payload : EnsembleValue) : Except AppError (IndexMap String EnsembleValue × List String) := do
  let (head, tail) ← splitPayload payload
  let inputs ← okOr ((head.get "inputs").bind Json.asArray) (.invalidRequestBody
    "declared-inputs ensemble requires a KServe envelope with an inputs[] array (R18/D31)")
  let scan ← inputs.foldlM (scanElement E decl tolerateUnknown tail) {}
  let rest := tail.length - scan.offset
  rejectIf (scan.offset ≠ tail.length)
    (.invalidRequestBody s!"binary tail has {rest} byte(s) beyond the declared sizes (R18)")
  decl.entries.foldlM fillDeclared (scan.values, [])

/-- The payload of a DAG without declared inputs. -/
def parseAnonymousRoot (payload : EnsembleValue) : Except AppError RootInputs :=
  match payload with
  | .json v => do
    rejectIf ((v.get "$inputs").isSome) (.invalidRequestBody ("'$inputs' is a reserved " ++
      "namespace (D14) — this ensemble has no inputs declaration; send a plain JSON body"))
    return .single payload
  | .envelope _ _ => .error (.invalidRequestBody ("Triton Binary Tensor Data Extension requests " ++
      "(JSON head + binary tail container) are only supported by ensembles with an inputs " ++
      "declaration"))
  | .rawJson _ | .binary _ _ _ _ => .ok (.single payload)

/-- The request root of a run. -/
def parseRootInputs (E : Externals) (payload : EnsembleValue)
    (decl : Option (IndexMap String InputDecl)) (tolerateUnknown : Bool) :
    Except AppError RootInputs :=
  match decl with
  | none => parseAnonymousRoot payload
  | some decl => do
    let (values, absent) ← parseNamedInputs E decl tolerateUnknown payload
    return .named values absent

end Ensemble

end LiteServer
