import LiteServer.Ensemble.Assemble
import LiteServer.Ensemble.Slices

/-!
# A multi-sink response as an envelope

The response of a DAG with several sinks has the form of a request envelope: an element for every
alias, and the bytes of the binary ones behind one another in the tail. A client can feed it to
another ensemble, with `outputs` renamed to `inputs`.

The response is plain JSON when no byte is in the tail, which is also the case when all binary sinks
are empty.

A raw JSON value is known to be well formed, but well-formed text need not parse: `1e400` is no
number of the library. Such a sink ends the response in a panic.

## Main results

* `sinkOf_eq_ok` — the element and the bytes of a sink
* `scanRun_sinks` — the elements of a response are read one after the other, each as its sink
* `sinks_decode_back_iff` — a response reads as the sinks it was built from, exactly when the raw
  ones parse
* `raw_sink_panics` — a raw sink that does not
-/

namespace LiteServer

namespace Ensemble

open Checks

/-- A value a sink can have: no envelope, and no raw text but well-formed JSON, which is checked
where a raw value is made. -/
def Sinkable (E : Externals) : ResolvedRef → Prop
  | .value (.rawJson bytes) => E.rawFromSlice bytes = .ok ()
  | .value (.envelope _ _) => False
  | _ => True

/-- The text of a raw value parses as a value. -/
def RawParses (E : Externals) : ResolvedRef → Prop
  | .value (.rawJson bytes) => ∃ v, E.jsonFromSlice bytes = .ok v
  | _ => True

/-- What the JSON library keeps to on well-formed text: a raw value can be made of it, and converts
to what the text parses as. -/
def RawLaws (E : Externals) : Prop :=
  ∀ bytes, E.rawFromSlice bytes = .ok () → E.rawFromLossy bytes = .ok () ∧
    ∀ v, E.rawToValue bytes = .ok v ↔ E.jsonFromSlice bytes = .ok v

/-- The JSON value of a sink that is not binary. -/
def sinkJson (E : Externals) : ResolvedRef → Json
  | .value (.json v) => v
  | .value (.rawJson bytes) => (E.jsonFromSlice bytes).toOption.getD .null
  | _ => .null

/-- The element of a sink. -/
def sinkElement (E : Externals) (name : String) (sink : ResolvedRef) : Json :=
  match sink with
  | .value (.binary data _ shape datatype) => binaryHead name data.length shape datatype
  | _ => .object [("data", sinkJson E sink), ("name", .string name)]

/-- The bytes of a sink in the tail. -/
def sinkTail : ResolvedRef → Bytes
  | .value (.binary data _ _ _) => data
  | _ => []

/-- The input that takes a sink: a binary one is declared binary, any other JSON. -/
def sinkDecl : ResolvedRef → InputDecl
  | .value (.binary _ _ _ _) => { ty := .binary }
  | _ => { ty := .json }

/-- A value is what was put in: the same bytes, or the same JSON. -/
def GivesBack (E : Externals) (sink : ResolvedRef) (v : EnsembleValue) : Prop :=
  match sink with
  | .value (.binary data _ _ _) => ∃ ct shape datatype, v = .binary data ct shape datatype
  | _ => v = .json (sinkJson E sink)

/-- Rename a member of an object; the members stay in key order. -/
def renameMember (old new : String) : Json → Json
  | .object members =>
    .object ((members.map fun m => (if m.1 = old then new else m.1, m.2)).insertionSort
      fun a b => keyLe a.1.toList b.1.toList)
  | v => v

/-- The response as a request: `outputs` renamed to `inputs`. -/
def asRequest : EnsembleValue → EnsembleValue
  | .json head => .json (renameMember "outputs" "inputs" head)
  | .envelope head tail => .envelope (renameMember "outputs" "inputs" head) tail
  | v => v

section

variable {E : Externals}

/-! ### Elements -/

variable {plan : EnsemblePlan} {context : Context} {name : String} {sink : ResolvedRef}

theorem sinkOf_eq_ok {ref : String} (hlaws : RawLaws E)
    (hresolve : resolveRef E plan ref context = .ok sink) (hsink : Sinkable E sink)
    (hraw : RawParses E sink) :
    sinkOf E plan context (name, ref) = .ok (sinkElement E name sink, sinkTail sink) := by
  refine bind_eq_ok.mpr ⟨sink, hresolve, ?_⟩
  cases sink with
  | absent key => rfl
  | value v =>
    cases v with
    | json v => rfl
    | rawJson bytes =>
      obtain ⟨v, hv⟩ := hraw
      obtain ⟨hwell, hvalue⟩ := hlaws bytes hsink
      simp [hwell, (hvalue v).mpr hv, sinkElement, sinkJson, sinkTail, hv, Except.toOption, pure,
        Except.pure]
    | binary data ct shape datatype => rfl
    | envelope head tail => exact absurd hsink id

/-- A sink that gave an element had no raw text but a value's. -/
theorem rawParses_of_sinkOf {ref : String} (hlaws : RawLaws E)
    (hresolve : resolveRef E plan ref context = .ok sink) (hsink : Sinkable E sink)
    {element : Json × Bytes} (h : sinkOf E plan context (name, ref) = .ok element) :
    RawParses E sink := by
  obtain ⟨sink', hresolve', h⟩ := bind_eq_ok.mp h
  obtain rfl := Except.ok.inj (hresolve.symm.trans hresolve')
  rcases sink with (v | bytes | ⟨data, ct, shape, datatype⟩ | ⟨head, tail⟩) | key
  · trivial
  · obtain ⟨hwell, hvalue⟩ := hlaws bytes hsink
    simp only [hwell] at h
    cases hto : E.rawToValue bytes with
    | ok v => exact ⟨v, (hvalue v).mp hto⟩
    | error e =>
      rw [hto] at h
      exact absurd h (by simp)
  · trivial
  · trivial
  · trivial

theorem binaryHead_get (name : String) (size : ℕ) (shape : Option (List Int))
    (datatype : Option String) :
    elementName (binaryHead name size shape datatype) = some name ∧
      (binaryHead name size shape datatype).get "data" = none ∧
      binaryDataSize (binaryHead name size shape datatype) = some (UInt64.ofNat size) := by
  have hint : (jsonInt (size : ℤ)).asU64 = some (UInt64.ofNat size) := by
    simp [jsonInt, Json.asU64]
  cases datatype <;> cases shape <;>
    simp [elementName, binaryDataSize, binaryHead, Json.get, Json.asStr, List.lookup_cons,
      List.lookup_nil, hint]

theorem elementName_sinkElement (name : String) (sink : ResolvedRef) :
    elementName (sinkElement E name sink) = some name := by
  unfold sinkElement
  split
  · exact (binaryHead_get _ _ _ _).1
  · rfl

/-- A sink is binary, or a JSON element without bytes in the tail. -/
theorem binary_or_json (E : Externals) (name : String) (sink : ResolvedRef) :
    (∃ data ct shape datatype, sink = .value (.binary data ct shape datatype)) ∨
      sinkElement E name sink = .object [("data", sinkJson E sink), ("name", .string name)] ∧
      sinkTail sink = [] ∧ sinkDecl sink = { ty := .json } ∧
      GivesBack E sink (.json (sinkJson E sink)) := by
  rcases sink with (v | bytes | ⟨data, ct, shape, datatype⟩ | ⟨head, tail⟩) | key
  · exact .inr ⟨rfl, rfl, rfl, rfl⟩
  · exact .inr ⟨rfl, rfl, rfl, rfl⟩
  · exact .inl ⟨data, ct, shape, datatype, rfl⟩
  · exact .inr ⟨rfl, rfl, rfl, rfl⟩
  · exact .inr ⟨rfl, rfl, rfl, rfl⟩

variable {decl : IndexMap String InputDecl} {tail : Bytes}

/-- A sink takes its bytes of the tail, and reads as what it is. -/
theorem scanned_sinkElement {offset : ℕ} (hdecl : decl.get? name = some (sinkDecl sink))
    (hlen : (sinkTail sink).length < 2 ^ 64) (hslice : sinkTail sink <+: tail.drop offset) :
    (sliceSize decl (sinkElement E name sink)).getD 0 = (sinkTail sink).length ∧
      ∃ v, GivesBack E sink v ∧
        Scanned E decl tail offset (sinkElement E name sink) (some (name, v)) := by
  have hname : elementName (sinkElement E name sink) = some name :=
    elementName_sinkElement name sink
  rcases binary_or_json E name sink with
    ⟨data, ct, shape, datatype, rfl⟩ | ⟨hhead, htail, hd, hback⟩
  · obtain ⟨-, hdata, hbytes⟩ := binaryHead_get name data.length shape datatype
    have hsize : (UInt64.ofNat data.length).toNat = data.length := UInt64.toNat_ofNat_of_lt' hlen
    have hvalue : (tail.drop offset).take (UInt64.ofNat data.length).toNat = data := by
      rw [hsize]
      exact (List.prefix_iff_eq_take.mp hslice).symm
    have hscanned := @Scanned.slice E decl tail offset _ _ _ _ hname hdecl rfl hdata hbytes
    rw [hvalue] at hscanned
    refine ⟨?_, _, ⟨_, _, _, rfl⟩, hscanned⟩
    rw [sliceSize, hname, Option.bind_some, hdecl]
    simp [sinkElement, sinkDecl, sinkTail, hdata, hbytes, hsize]
  · rw [hd] at hdecl
    refine ⟨?_, _, hback, .json hname hdecl rfl (hhead ▸ rfl)⟩
    simp [sliceSize, hname, hdecl, htail]

/-! ### The whole response -/

variable {sinks : List (String × ResolvedRef)}

/-- The elements of the sinks are read one after the other. -/
theorem scanRun_sinks (hlen : tail.length < 2 ^ 64) {scan : EnvelopeScan}
    (hnodup : (sinks.map Prod.fst).Nodup) (hfresh : ∀ e ∈ sinks, e.1 ∉ scan.values.keys)
    (hdecl : ∀ e ∈ sinks, decl.get? e.1 = some (sinkDecl e.2))
    (htail : tail.drop scan.offset = sinks.flatMap fun e => sinkTail e.2)
    (hoffset : scan.offset ≤ tail.length) :
    ∃ scan', ScanRun E decl tail scan (sinks.map fun e => sinkElement E e.1 e.2) scan' ∧
      scan'.offset = tail.length ∧
      ∀ e ∈ sinks, ∃ v, scan'.values.get? e.1 = some v ∧ GivesBack E e.2 v := by
  induction sinks generalizing scan with
  | nil =>
    refine ⟨scan, .nil, ?_, fun e he => absurd he List.not_mem_nil⟩
    exact Nat.le_antisymm hoffset (List.drop_eq_nil_iff.mp htail)
  | cons e sinks ih =>
    obtain ⟨name, sink⟩ := e
    rw [List.map_cons, List.nodup_cons] at hnodup
    have hslice : sinkTail sink <+: tail.drop scan.offset := ⟨_, htail.symm⟩
    have hfits : (sinkTail sink).length ≤ tail.length - scan.offset := by
      rw [← List.length_drop]
      exact hslice.length_le
    obtain ⟨hsize, v, hback, hscanned⟩ := scanned_sinkElement
      (hdecl (name, sink) List.mem_cons_self) (by dsimp only; omega) hslice
    dsimp only at hsize hscanned
    let next := scan.push decl (sinkElement E name sink) (some (name, v))
    have hkeys (n : String) : n ∈ next.values.keys ↔ n = name ∨ n ∈ scan.values.keys :=
      IndexMap.mem_keys_insert
    have hstop : next.offset = scan.offset + (sinkTail sink).length := by
      rw [← hsize]
      rfl
    have hnext : ∀ e ∈ sinks, e.1 ∉ next.values.keys := by
      intro e he hmem
      rcases (hkeys e.1).mp hmem with heq | hold
      · exact hnodup.1 (List.mem_map.mpr ⟨e, he, heq⟩)
      · exact hfresh e (List.mem_cons_of_mem _ he) hold
    have hrest : tail.drop next.offset = sinks.flatMap fun e => sinkTail e.2 := by
      rw [hstop, ← List.drop_drop, htail]
      exact List.drop_left
    obtain ⟨scan', hrun, hall, hread⟩ := ih hnodup.2 hnext
      (fun e he => hdecl e (List.mem_cons_of_mem _ he)) hrest (by omega)
    have hget : next.values.get? name = some v := by
      change (scan.values.insert name v).get? name = some v
      rw [IndexMap.get?_insert, if_pos rfl]
    refine ⟨scan', .cons hscanned ?_ ?_ hrun, hall,
      List.forall_mem_cons.mpr ⟨⟨v, hrun.get?_of_get? hget, hback⟩, hread⟩⟩
    · intro e he
      rw [← Option.some.inj he]
      exact hfresh (name, sink) List.mem_cons_self
    · dsimp only
      omega

/-- The response of some sinks. -/
def sinkResponse (E : Externals) (modelName : String) (sinks : List (String × ResolvedRef)) :
    EnsembleValue :=
  let head := Json.object [("model_name", .string modelName),
    ("outputs", .array (sinks.map fun s => sinkElement E s.1 s.2))]
  let tail := sinks.flatMap fun s => sinkTail s.2
  if tail.isEmpty then .json head else .envelope head tail

/-- The sinks of a response, one after the other. -/
theorem mapM_sinkOf (hlaws : RawLaws E) {outputs : List (String × String)}
    (hresolve : List.Forall₂ (fun e s => s.1 = e.1 ∧ resolveRef E plan e.2 context = .ok s.2)
      outputs sinks) (hsinks : ∀ s ∈ sinks, Sinkable E s.2) (hraw : ∀ s ∈ sinks, RawParses E s.2) :
    outputs.mapM (sinkOf E plan context) =
      .ok (sinks.map fun s => (sinkElement E s.1 s.2, sinkTail s.2)) := by
  rw [mapM_eq_ok]
  induction hresolve with
  | nil => exact .nil
  | @cons e s _ _ hes _ ih =>
    obtain ⟨hsink, hrest⟩ := List.forall_mem_cons.mp hsinks
    obtain ⟨hparses, hraw⟩ := List.forall_mem_cons.mp hraw
    have hentry : e = (s.1, e.2) := by rw [hes.1]
    rw [hentry]
    exact .cons (sinkOf_eq_ok hlaws hes.2 hsink hparses) (ih hrest hraw)

/-- A response was built, so every raw sink parses. -/
theorem rawParses_of_buildResponse (hlaws : RawLaws E) {outputs : IndexMap String String}
    (houtputs : plan.outputs = some outputs)
    (hresolve : List.Forall₂ (fun e s => s.1 = e.1 ∧ resolveRef E plan e.2 context = .ok s.2)
      outputs.entries sinks) (hsinks : ∀ s ∈ sinks, Sinkable E s.2) {modelName : String}
    {metas : String → Option StepResponseMeta} {outcome : EnsembleOutcome}
    (h : buildResponse E plan modelName context metas = .ok outcome) :
    ∀ s ∈ sinks, RawParses E s.2 := by
  rw [buildResponse, houtputs] at h
  obtain ⟨elements, hmapM, -⟩ := bind_eq_ok.mp h
  rw [mapM_eq_ok] at hmapM
  clear h houtputs
  generalize outputs.entries = entries at hresolve hmapM
  induction hresolve generalizing elements with
  | nil => exact fun s hs => absurd hs List.not_mem_nil
  | cons hes _ ih =>
    obtain ⟨hsink, hrest⟩ := List.forall_mem_cons.mp hsinks
    cases hmapM with
    | cons helement helements =>
      exact List.forall_mem_cons.mpr
        ⟨rawParses_of_sinkOf hlaws hes.2 hsink helement, ih hrest _ helements⟩

theorem buildResponse_sinks {outputs : IndexMap String String}
    (houtputs : plan.outputs = some outputs) (hmapM : outputs.entries.mapM (sinkOf E plan context) =
      .ok (sinks.map fun s => (sinkElement E s.1 s.2, sinkTail s.2))) (modelName : String)
    (metas : String → Option StepResponseMeta) :
    buildResponse E plan modelName context metas =
      .ok (.unary (sinkResponse E modelName sinks) none) := by
  rw [buildResponse, houtputs]
  refine bind_eq_ok.mpr ⟨_, hmapM, ?_⟩
  rw [List.map_map, List.flatMap_map]
  rfl

/-- A response, read as a request: its elements and its tail. -/
theorem splitPayload_asRequest (modelName : String) (sinks : List (String × ResolvedRef)) :
    ∃ request, splitPayload (asRequest (sinkResponse E modelName sinks)) =
        .ok (request, sinks.flatMap fun s => sinkTail s.2) ∧
      (request.get "inputs").bind Json.asArray =
        some (sinks.map fun s => sinkElement E s.1 s.2) := by
  have hrename (elements : List Json) : renameMember "outputs" "inputs"
      (.object [("model_name", .string modelName), ("outputs", .array elements)]) =
      .object [("inputs", .array elements), ("model_name", .string modelName)] := by
    simp [renameMember, keyLe]
  rw [sinkResponse]
  cases htail : sinks.flatMap fun s => sinkTail s.2 with
  | nil => exact ⟨_, congrArg (fun head => Except.ok (head, [])) (hrename _), rfl⟩
  | cons b tail => exact ⟨_, congrArg (fun head => Except.ok (head, b :: tail)) (hrename _), rfl⟩

theorem required_sinkDecl (sink : ResolvedRef) : (sinkDecl sink).required = true := by
  unfold sinkDecl
  split <;> rfl

/-- A response reads as its sinks, under the declaration that fits them. -/
theorem exists_parse_sinkResponse (E : Externals) (modelName : String)
    (sinks : IndexMap String ResolvedRef)
    (hlen : (sinks.entries.flatMap fun s => sinkTail s.2).length < 2 ^ 64) (tolerate : Bool) :
    ∃ values, parseNamedInputs E (sinks.mapValues sinkDecl) tolerate
        (asRequest (sinkResponse E modelName sinks.entries)) = .ok (values, []) ∧
      (∀ name, name ∈ values.keys ↔ name ∈ sinks.keys) ∧
      ∀ s ∈ sinks.entries, ∃ v, values.get? s.1 = some v ∧ GivesBack E s.2 v := by
  have hkeys : (sinks.mapValues sinkDecl).keys = sinks.keys := by
    simp [IndexMap.keys, IndexMap.mapValues]
  have hdecl : ∀ s ∈ sinks.entries, (sinks.mapValues sinkDecl).get? s.1 = some (sinkDecl s.2) :=
    fun s hs => IndexMap.get?_eq_some_iff.mpr (List.mem_map.mpr ⟨s, hs, rfl⟩)
  obtain ⟨scan, hrun, hall, hread⟩ : ∃ scan, ScanRun E (sinks.mapValues sinkDecl) _ {} _ scan ∧ _ :=
    scanRun_sinks hlen sinks.nodup (fun _ _ => List.not_mem_nil) hdecl rfl (Nat.zero_le _)
  obtain ⟨request, hsplit, hinputs⟩ := splitPayload_asRequest (E := E) modelName sinks.entries
  have hcovered : ∀ n d, (n, d) ∈ (sinks.mapValues sinkDecl).entries →
      n ∈ scan.values.keys ∨ d.required = false := by
    intro n d hmem
    obtain ⟨s, hs, hsd⟩ := List.mem_map.mp hmem
    obtain ⟨v, hv, -⟩ := hread s hs
    obtain ⟨rfl, -⟩ := Prod.mk.inj hsd
    exact .inl (IndexMap.mem_keys_of_get? hv)
  have hdeclared : ∀ el ∈ sinks.entries.map fun s => sinkElement E s.1 s.2,
      ∃ name d, elementName el = some name ∧ (sinks.mapValues sinkDecl).get? name = some d := by
    intro el hel
    obtain ⟨s, hs, rfl⟩ := List.mem_map.mp hel
    exact ⟨s.1, _, elementName_sinkElement s.1 s.2, hdecl s hs⟩
  obtain ⟨values, absent, hparse, hfill⟩ :
      ∃ values absent, parseNamedInputs E _ tolerate _ = _ ∧ _ :=
    exists_parseNamedInputs hsplit hlen hinputs hrun hall hcovered (.inr hdeclared)
  have hcomplete : Complete (sinks.mapValues sinkDecl) values absent := by
    refine complete_of_fill (fun name v hv => ?_) hfill
    obtain ⟨d, hd, -⟩ := hrun.hasType hv
    exact IndexMap.mem_keys_of_get? hd
  -- Every input is required, so none can be absent.
  obtain rfl : absent = [] := by
    refine List.eq_nil_iff_forall_not_mem.mpr fun name hname => ?_
    have hmem : name ∈ sinks.keys := hkeys ▸ (hcomplete.declared name).mp (.inr hname)
    obtain ⟨s, hs, rfl⟩ := List.mem_map.mp hmem
    have hreq := hcomplete.optional s.1 hname _ (hdecl s hs)
    exact absurd hreq (by simp [required_sinkDecl])
  refine ⟨values, hparse, fun name => ?_, fun s hs => ?_⟩
  · rw [← hkeys, ← hcomplete.declared name]
    simp
  · obtain ⟨v, hv, hback⟩ := hread s hs
    exact ⟨v, (hfill.get?_eq_some s.1 v).mpr (.inl hv), hback⟩

/-- **A response reads as the sinks it was built from**, exactly when every raw sink parses. With
`outputs` renamed to `inputs`, and each binary alias declared binary and any other JSON, no input is
absent and every alias has the bytes or the JSON value that was put in. -/
theorem sinks_decode_back_iff (E : Externals) (hlaws : RawLaws E) (plan : EnsemblePlan)
    (context : Context) (outputs : IndexMap String String) (sinks : IndexMap String ResolvedRef)
    (houtputs : plan.outputs = some outputs)
    (hresolve : outputs.traverse (fun _ ref => resolveRef E plan ref context) = .ok sinks)
    (hsinks : ∀ s ∈ sinks.entries, Sinkable E s.2)
    (hlen : (sinks.entries.flatMap fun s => sinkTail s.2).length < 2 ^ 64)
    (modelName : String) (metas : String → Option StepResponseMeta) (tolerate : Bool) :
    (∃ response values, buildResponse E plan modelName context metas = .ok (.unary response none) ∧
      parseRootInputs E (asRequest response) (some (sinks.mapValues sinkDecl)) tolerate =
        .ok (.named values []) ∧
      (∀ name, name ∈ values.keys ↔ name ∈ sinks.keys) ∧
      ∀ s ∈ sinks.entries, ∃ v, values.get? s.1 = some v ∧ GivesBack E s.2 v) ↔
    ∀ s ∈ sinks.entries, RawParses E s.2 := by
  rw [IndexMap.traverse_eq_ok] at hresolve
  constructor
  · rintro ⟨_, _, hbuild, -⟩
    exact rawParses_of_buildResponse hlaws houtputs hresolve hsinks hbuild
  · intro hraw
    have hmapM := mapM_sinkOf hlaws hresolve hsinks hraw
    obtain ⟨values, hparse, hkeys, hback⟩ :=
      exists_parse_sinkResponse E modelName sinks hlen tolerate
    refine ⟨_, values, buildResponse_sinks houtputs hmapM modelName metas, ?_, hkeys, hback⟩
    simp only [parseRootInputs, hparse]
    rfl

end

/-! ### Four sinks -/

/-- Every input of the request is a sink: an image, an empty one, a raw object, and an input that is
left out. -/
def fourSinks : EnsemblePlan where
  steps := []
  layers := []
  outputStep := 0
  outputField := none
  chains := []
  inputsDecl := none
  inputModes := []
  conditionalRefs := []
  stepDepKeys := []
  stepRawEligible := []
  outputs := some ⟨[("a", "$inputs.img"), ("b", "$inputs.nil"), ("c", "$inputs.raw"),
    ("d", "$inputs.gone")], by decide⟩

/-- What the references of the sinks resolve to. -/
def fourSinksContext : Context
  | "inputs.img" => some (.binary [7, 8] "image/png" (some [1, 2]) (some "UINT8"))
  | "inputs.nil" => some (.binary [] octetStream none none)
  | "inputs.raw" => some (.rawJson [123, 125])
  | _ => none

/-- The sinks, resolved. -/
def fourSinksValues : IndexMap String ResolvedRef :=
  ⟨[("a", .value (.binary [7, 8] "image/png" (some [1, 2]) (some "UINT8"))),
    ("b", .value (.binary [] octetStream none none)), ("c", .value (.rawJson [123, 125])),
    ("d", .absent "inputs.gone")], by decide⟩

theorem fourSinks_decode_back : ∃ response values,
    buildResponse plainExternals fourSinks "m" fourSinksContext (fun _ => none) =
      .ok (.unary response none) ∧
    parseRootInputs plainExternals (asRequest response) (some (fourSinksValues.mapValues sinkDecl))
      false = .ok (.named values []) ∧
    ∀ s ∈ fourSinksValues.entries, ∃ v, values.get? s.1 = some v ∧
      GivesBack plainExternals s.2 v := by
  have hlaws : RawLaws plainExternals := by
    intro bytes hwell
    exact ⟨hwell, fun v => Iff.rfl⟩
  have hresolve :
      IndexMap.traverse (fun _ ref => resolveRef plainExternals fourSinks ref fourSinksContext)
      ⟨[("a", "$inputs.img"), ("b", "$inputs.nil"), ("c", "$inputs.raw"), ("d", "$inputs.gone")],
        by decide⟩ = .ok fourSinksValues := by
    rw [IndexMap.traverse_eq_ok]
    refine .cons ⟨rfl, ?_⟩ (.cons ⟨rfl, ?_⟩ (.cons ⟨rfl, ?_⟩ (.cons ⟨rfl, ?_⟩ .nil)))
    · rfl
    · rfl
    · rfl
    · rfl
  have hsinks : ∀ s ∈ fourSinksValues.entries, Sinkable plainExternals s.2 := by
    simp [fourSinksValues, Sinkable, plainExternals]
  have hraw : ∀ s ∈ fourSinksValues.entries, RawParses plainExternals s.2 := by
    simp [fourSinksValues, RawParses, plainExternals]
  obtain ⟨response, values, hbuild, hparse, -, hback⟩ :=
    (sinks_decode_back_iff plainExternals hlaws fourSinks fourSinksContext _ fourSinksValues rfl
      hresolve hsinks (by decide) "m" (fun _ => none) false).mpr hraw
  exact ⟨response, values, hbuild, hparse, hback⟩

/-! ### A raw sink that does not parse -/

/-- The text `1e400`. -/
def hugeNumber : Bytes := [49, 101, 52, 48, 48]

/-- Libraries that know the empty object and `1e400`, which is well formed but no `f64`. -/
def hugeExternals : Externals :=
  { plainExternals with
    jsonFromSlice := fun b =>
      if b = hugeNumber then .error "number out of range at line 1 column 5"
      else plainExternals.jsonFromSlice b
    rawFromSlice := fun b => if b = hugeNumber then .ok () else plainExternals.rawFromSlice b
    rawFromLossy := fun b => if b = hugeNumber then .ok () else plainExternals.rawFromLossy b
    rawToValue := fun b =>
      if b = hugeNumber then .error "Error(\"number out of range\", line: 1, column: 5)"
      else plainExternals.rawToValue b }

/-- A DAG whose one step is its sink. -/
def rawSinkSet : EnsembleDagSet where
  steps := [{ name := "s", model := "w", inputs := some .empty }]
  outputs := some (IndexMap.empty.insert "o" "$s")

/-- The plan of that DAG. -/
def rawSinkPlan : EnsemblePlan :=
  (parseEnsembleSet hugeExternals .listed rawSinkSet).toOption.get (by decide)

/-- The answer of the worker of a raw-eligible step is kept as it is, and the response panics on
it. -/
theorem raw_sink_panics :
    parseEnsembleSet hugeExternals .listed rawSinkSet = .ok rawSinkPlan ∧
    rawSinkPlan.stepRawEligible = [true] ∧
    unaryResponseToValue hugeExternals "s" ⟨"u", some (.single { data := hugeNumber }), none⟩ true =
      .ok (.rawJson hugeNumber, none) ∧
    buildResponse hugeExternals rawSinkPlan "m"
        (putAll (fun _ => none) [("s", .rawJson hugeNumber)]) (fun _ => none) =
      .error (unwrapPanic "Error(\"number out of range\", line: 1, column: 5)") :=
  ⟨rfl, rfl, rfl, rfl⟩

end Ensemble

end LiteServer
