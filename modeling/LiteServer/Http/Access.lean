import LiteServer.Http.Origin

/-!
# Access control

The gate in front of every HTTP route. A path belongs to a class, the class has a policy, and an
administrative request without a configured key is admitted when its peer is a loopback address.
Such a request is then checked once more: a web page open in a browser on the same machine has the
same peer, so a request that changes something must not come from another site.

## Left out

The fingerprints of keys, the log, and how a secret is found at startup.
-/

namespace LiteServer.Http

/-! ### Requests -/

/-- The methods of requests. -/
inductive Method
  | get
  | post
  | put
  | delete
  | head
  | options
  | connect
  | patch
  | trace
  | extension (name : String)
  deriving DecidableEq

/-- The methods that the guard lets pass. -/
def Method.isSafe : Method → Bool
  | .get | .head | .options | .trace => true
  | _ => false

/-- What the middleware reads of a request. -/
structure Request where
  method : Method
  path : Text
  /-- The authority of the request target, as HTTP/2 has it. -/
  authority : Option Text
  headers : HeaderMap
  /-- Whether the address of the peer is a loopback address; a local socket has none. -/
  peerLoopback : Option Bool

/-- Without a peer address a request counts as local. -/
def Request.isLoopback (req : Request) : Bool := req.peerLoopback.getD true

/-! ### The class of a path -/

/-- The classes of endpoints that policies are for. -/
inductive EndpointClass
  | admin
  | inference
  | health
  deriving DecidableEq

/-- The last segments of the inference paths of a model. -/
def inferenceLeaves : List Text :=
  ["infer".toList, "events".toList, "stream".toList, "bidi".toList, "decoupled".toList,
    "decoupled-stream".toList, "generate".toList, "generate_stream".toList]

/-- The last segments of the other paths of a model. -/
def adminLeaves : List Text :=
  ["ready".toList, "health".toList, "routing".toList, "activate".toList, "compare".toList,
    "reload".toList]

/-- The segment in front of a version. -/
def versionsText : Text := "versions".toList

/-- The model and the version that a path under `/v2/models/` runs. -/
def accessLogTarget (path : Text) : Option (Text × Option Text) :=
  ("/v2/models/".toList.isPrefixOf? path).bind fun rest =>
    match rest.splitOn '/' with
    | [] => none
    | model :: segs =>
      if model = [] then none
      else
        match segs with
        | [] => none
        | [leaf] =>
          if leaf ∈ inferenceLeaves then some (model, none)
          else if leaf = versionsText ∨ leaf ∈ adminLeaves then none
          -- a route of the model's own
          else some (model, none)
        | [first, version, leaf] =>
          if first = versionsText then
            if leaf ∈ inferenceLeaves ∧ version ≠ [] then some (model, some version) else none
          else some (model, none)
        | first :: _ => if first = versionsText then none else some (model, none)

/-- The paths of the probes. -/
def healthPaths : List Text :=
  ["/health".toList, "/livez".toList, "/readyz".toList, "/startupz".toList,
    "/v2/health/live".toList, "/v2/health/ready".toList]

/-- `classify_http_path`. -/
def classifyHttpPath (path : Text) : EndpointClass :=
  if path ∈ healthPaths then .health
  else if (accessLogTarget path).isSome then .inference
  else if "/v1/".toList.isPrefixOf path then .inference
  else .admin

/-! ### Policies -/

/-- What a cell of the policy asks for. -/
inductive ResolvedControl
  | unconfigured
  | openToAll
  | key (header : String) (secret : Bytes)
  deriving DecidableEq

/-- The protocols that a cell is for. -/
inductive Protocol
  | http
  | sse
  | webSocket
  | http2
  | grpc

/-- The policies of one class; everything but gRPC goes over the HTTP stack. -/
structure CellPolicy where
  http : ResolvedControl
  grpc : ResolvedControl

/-- The resolved policy, by class and protocol. -/
structure AccessControl where
  admin : CellPolicy
  inference : CellPolicy
  health : CellPolicy
  trustedOrigins : List NormalizedOrigin

/-- The cell of a class and a protocol. -/
def AccessControl.cell (ac : AccessControl) (cls : EndpointClass) (protocol : Protocol) :
    ResolvedControl :=
  let policy := match cls with
    | .admin => ac.admin
    | .inference => ac.inference
    | .health => ac.health
  match protocol with
  | .grpc => policy.grpc
  | .http | .sse | .webSocket | .http2 => policy.http

/-- Whether the cell admits the request. -/
def AccessControl.check (ac : AccessControl) (cls : EndpointClass) (protocol : Protocol)
    (headers : HeaderMap) (isLoopback : Bool) : Bool :=
  match ac.cell cls protocol with
  | .openToAll => true
  | .key header secret =>
    match headers.get header.toLower with
    | some presented => (toStr presented).isSome && presented = secret
    | none => false
  | .unconfigured =>
    match cls with
    | .admin => isLoopback
    | .inference | .health => true

/-- The cell admits local peers only. -/
def AccessControl.usesLoopbackExemption (ac : AccessControl) (cls : EndpointClass)
    (protocol : Protocol) : Bool :=
  ac.cell cls protocol = .unconfigured

/-- The text reads as an origin of the list. -/
def AccessControl.originIsTrusted (ac : AccessControl) (announced : Text) : Bool :=
  match normalizeOrigin announced with
  | none => false
  | some origin => ac.trustedOrigins.contains origin

/-! ### The middleware -/

/-- The `Host` header as the guard reads it. -/
def Request.hostText (req : Request) : Option Text := (req.headers.get "host").bind toStr

/-- The `Origin` header as the guard reads it, or else the `Referer` header. -/
def Request.announcedText (req : Request) : Option Text :=
  ((req.headers.get "origin").bind toStr).or ((req.headers.get "referer").bind toStr)

/-- `admin_request_is_cross_site`. -/
def adminRequestIsCrossSite (cls : EndpointClass) (ac : AccessControl) (req : Request) : Bool :=
  if cls ≠ .admin then false
  else if req.method.isSafe then false
  else if !ac.usesLoopbackExemption cls .http then false
  else
    match req.hostText with
    | none => false
    | some host =>
      match req.announcedText with
      | none => false
      | some value => !originMatchesHost value host && !ac.originIsTrusted value

/-- Both are answered with status 401. -/
inductive AccessError
  | accessDenied
  | crossSite
  deriving DecidableEq

/-- The answer of the gate, or `none` when the request goes on. -/
def accessControlMiddleware (ac : AccessControl) (req : Request) : Option AccessError :=
  let cls := classifyHttpPath req.path
  if !ac.check cls .http req.headers req.isLoopback then some .accessDenied
  else if adminRequestIsCrossSite cls ac req then some .crossSite
  else none

end LiteServer.Http
