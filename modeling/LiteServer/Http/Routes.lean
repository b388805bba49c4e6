import LiteServer.Http.Access

/-!
# The routes of an instance

`create_routes` as a table: the templates, the methods and the handlers, with the groups that are
mounted only when their feature is on. A template is matched against the segments of the path as
they were sent; a parameter is decoded after the match. What no template matches is looked up among
the routes that the model itself declares.

Where a literal and a parameter compete the router prefers the literal; no two templates of the
table compete, so the first row that matches is the one.

## Left out

The layers around the routes (access control, admission, CORS) and the table of the protocol
modules, which is empty.
-/

namespace LiteServer.Http

/-- A segment of a template. -/
inductive Segment
  | lit (text : Text)
  | param
  deriving DecidableEq

/-- The parameters of a match against the segments of a path; a parameter is not empty. -/
def Segment.matchSegments : List Segment → List Text → Option (List Text)
  | [], [] => some []
  | .lit text :: segs, x :: xs => if x = text then matchSegments segs xs else none
  | .param :: segs, x :: xs => if x = [] then none else (matchSegments segs xs).map (x :: ·)
  | _, _ => none

/-- `config.features`. -/
structure Features where
  timeline : Bool
  alerts : Bool
  acceleratorMetrics : Bool
  versionCompare : Bool
  streaming : Bool
  sse : Bool
  decoupled : Bool
  websocketStreaming : Bool
  httpBidi : Bool

/-- The handlers. -/
inductive Action
  | health
  | livez
  | readyz
  | startupz
  | info
  | metrics
  | v2ServerMetadata
  | modelMetadata
  | deleteModel
  | modelMetadataVersion
  | listModels
  | listVersions
  | modelReady
  | modelReadyVersion
  | modelHealth
  | modelHealthVersion
  | repositoryIndex
  | repositoryDrift
  | bareLoadModel
  | loadModel
  | unloadModel
  | unloadVersion
  | reloadModel
  | reloadVersion
  | uploadModel
  | downloadModel
  | listFiles
  | createUploadSession
  | getUploadSession
  | deleteUploadSession
  | completeUploadSession
  | putSessionChunk
  | uploadModelPackage
  | downloadModelPackage
  | deleteVersion
  | deleteVersions
  | activateVersion
  | modelVersionConfig
  | modelVersionConfigPatch
  | serverConfig
  | setRouting
  | infer
  | inferVersion
  | generate
  | generateVersion
  | timeline
  | timelineModel
  | timelineModelVersion
  | alerts
  | accelerator
  | compareVersions
  | sseInfer
  | sseInferVersion
  | generateStream
  | generateStreamVersion
  | sseDecoupled
  | sseDecoupledVersion
  | wsStream
  | wsStreamVersion
  | wsDecoupled
  | wsDecoupledVersion
  | h2Bidi
  | h2BidiVersion
  | openaiInfer
  | v1Models
  | v1ModelRetrieve
  deriving DecidableEq

/-- The handlers that run a model. -/
def Action.isInference : Action → Bool
  | .infer | .inferVersion | .generate | .generateVersion | .sseInfer | .sseInferVersion
  | .generateStream | .generateStreamVersion | .sseDecoupled | .sseDecoupledVersion
  | .wsStream | .wsStreamVersion | .wsDecoupled | .wsDecoupledVersion
  | .h2Bidi | .h2BidiVersion | .openaiInfer => true
  | _ => false

/-- A route of the instance server. -/
structure InstanceRoute where
  template : List Segment
  method : Method
  action : Action
  deriving DecidableEq

/-- A literal segment. -/
def word (text : String) : Segment := .lit text.toList

/-! ### Templates -/

/-- `/v2/models/:model_name`. -/
def modelPath (rest : List Segment) : List Segment :=
  word "v2" :: word "models" :: .param :: rest

/-- `/v2/models/:model_name/versions/:version`. -/
def versionPath (rest : List Segment) : List Segment :=
  modelPath (word "versions" :: .param :: rest)

/-- `/v2/repository/models/:model_name`. -/
def repositoryPath (rest : List Segment) : List Segment :=
  word "v2" :: word "repository" :: word "models" :: .param :: rest

/-- `/v2/repository/models/:model_name/versions/:version`. -/
def repositoryVersionPath (rest : List Segment) : List Segment :=
  repositoryPath (word "versions" :: .param :: rest)

/-- `…/upload-sessions/:session_id`. -/
def sessionPath (rest : List Segment) : List Segment :=
  repositoryVersionPath (word "upload-sessions" :: .param :: rest)

/-- `/metrics/timeline/:model_name`. -/
def timelinePath (rest : List Segment) : List Segment :=
  word "metrics" :: word "timeline" :: .param :: rest

/-! ### The table -/

/-- The routes that are always there: probes, models and the repository. -/
def systemRoutes : List InstanceRoute :=
  [⟨[word "health"], .get, .health⟩,
    ⟨[word "livez"], .get, .livez⟩,
    ⟨[word "readyz"], .get, .readyz⟩,
    ⟨[word "startupz"], .get, .startupz⟩,
    ⟨[word "info"], .get, .info⟩,
    ⟨[word "metrics"], .get, .metrics⟩,
    ⟨[word "v2"], .get, .v2ServerMetadata⟩,
    ⟨[word "v2", word "health", word "live"], .get, .livez⟩,
    ⟨[word "v2", word "health", word "ready"], .get, .readyz⟩,
    ⟨modelPath [], .get, .modelMetadata⟩,
    ⟨modelPath [], .delete, .deleteModel⟩,
    ⟨versionPath [], .get, .modelMetadataVersion⟩,
    ⟨[word "v2", word "models"], .get, .listModels⟩,
    ⟨modelPath [word "versions"], .get, .listVersions⟩,
    ⟨modelPath [word "ready"], .get, .modelReady⟩,
    ⟨versionPath [word "ready"], .get, .modelReadyVersion⟩,
    ⟨modelPath [word "health"], .get, .modelHealth⟩,
    ⟨versionPath [word "health"], .get, .modelHealthVersion⟩,
    ⟨[word "v2", word "repository", word "index"], .post, .repositoryIndex⟩,
    ⟨[word "v2", word "repository", word "drift"], .get, .repositoryDrift⟩,
    ⟨repositoryPath [word "load"], .post, .bareLoadModel⟩,
    ⟨repositoryVersionPath [word "load"], .post, .loadModel⟩,
    ⟨repositoryPath [word "unload"], .post, .unloadModel⟩,
    ⟨repositoryVersionPath [word "unload"], .post, .unloadVersion⟩,
    ⟨modelPath [word "reload"], .post, .reloadModel⟩,
    ⟨versionPath [word "reload"], .post, .reloadVersion⟩,
    ⟨repositoryVersionPath [word "upload"], .post, .uploadModel⟩,
    ⟨repositoryVersionPath [word "download"], .get, .downloadModel⟩,
    ⟨repositoryVersionPath [word "files"], .get, .listFiles⟩,
    ⟨repositoryVersionPath [word "upload-sessions"], .post, .createUploadSession⟩,
    ⟨sessionPath [], .get, .getUploadSession⟩,
    ⟨sessionPath [], .delete, .deleteUploadSession⟩,
    ⟨sessionPath [word "complete"], .post, .completeUploadSession⟩,
    ⟨sessionPath [word "files", .param, word "chunks", .param], .put, .putSessionChunk⟩,
    ⟨repositoryPath [word "upload"], .post, .uploadModelPackage⟩,
    ⟨repositoryPath [word "download"], .get, .downloadModelPackage⟩,
    ⟨versionPath [], .delete, .deleteVersion⟩,
    ⟨modelPath [word "versions"], .delete, .deleteVersions⟩,
    ⟨versionPath [word "activate"], .post, .activateVersion⟩,
    ⟨versionPath [word "config"], .get, .modelVersionConfig⟩,
    ⟨versionPath [word "config"], .patch, .modelVersionConfigPatch⟩,
    ⟨[word "v2", word "server", word "config"], .get, .serverConfig⟩,
    ⟨modelPath [word "routing"], .put, .setRouting⟩,
    ⟨modelPath [word "infer"], .post, .infer⟩,
    ⟨versionPath [word "infer"], .post, .inferVersion⟩,
    ⟨modelPath [word "generate"], .post, .generate⟩,
    ⟨versionPath [word "generate"], .post, .generateVersion⟩]

/-- The routes of the timeline. -/
def timelineRoutes : List InstanceRoute :=
  [⟨[word "metrics", word "timeline"], .get, .timeline⟩,
    ⟨timelinePath [], .get, .timelineModel⟩,
    ⟨timelinePath [word "versions", .param], .get, .timelineModelVersion⟩]

/-- The routes that stream events. -/
def sseRoutes : List InstanceRoute :=
  [⟨modelPath [word "events"], .post, .sseInfer⟩,
    ⟨versionPath [word "events"], .post, .sseInferVersion⟩,
    ⟨modelPath [word "generate_stream"], .post, .generateStream⟩,
    ⟨versionPath [word "generate_stream"], .post, .generateStreamVersion⟩]

/-- The routes of the OpenAI protocol. -/
def openaiRoutes : List InstanceRoute :=
  [⟨[word "v1", word "chat", word "completions"], .post, .openaiInfer⟩,
    ⟨[word "v1", word "completions"], .post, .openaiInfer⟩,
    ⟨[word "v1", word "embeddings"], .post, .openaiInfer⟩,
    ⟨[word "v1", word "models"], .get, .v1Models⟩,
    ⟨[word "v1", word "models", .param], .get, .v1ModelRetrieve⟩]

/-- The rows of `create_routes`, each group with the condition it is mounted on. -/
def routeGroups : List ((Features → Bool) × List InstanceRoute) :=
  [(fun _ => true, systemRoutes),
    (fun f => f.timeline, timelineRoutes),
    (fun f => f.alerts, [⟨[word "metrics", word "alerts"], .get, .alerts⟩]),
    (fun f => f.acceleratorMetrics, [⟨[word "metrics", word "accelerator"], .get, .accelerator⟩]),
    (fun f => f.versionCompare, [⟨modelPath [word "compare"], .get, .compareVersions⟩]),
    (fun f => f.streaming && f.sse, sseRoutes),
    (fun f => f.streaming && f.sse && f.decoupled,
      [⟨modelPath [word "decoupled"], .post, .sseDecoupled⟩,
        ⟨versionPath [word "decoupled"], .post, .sseDecoupledVersion⟩]),
    (fun f => f.streaming && f.websocketStreaming,
      [⟨modelPath [word "stream"], .get, .wsStream⟩,
        ⟨versionPath [word "stream"], .get, .wsStreamVersion⟩]),
    (fun f => f.streaming && f.websocketStreaming && f.decoupled,
      [⟨modelPath [word "decoupled-stream"], .get, .wsDecoupled⟩,
        ⟨versionPath [word "decoupled-stream"], .get, .wsDecoupledVersion⟩]),
    (fun f => f.streaming && f.httpBidi,
      [⟨modelPath [word "bidi"], .post, .h2Bidi⟩,
        ⟨versionPath [word "bidi"], .post, .h2BidiVersion⟩]),
    (fun _ => true, openaiRoutes)]

/-- The routes of the groups that are switched on. -/
def createRoutes (features : Features) : List InstanceRoute :=
  routeGroups.flatMap fun group => if group.1 features then group.2 else []

/-- The rows of all groups. -/
def allRoutes : List InstanceRoute := routeGroups.flatMap Prod.snd

section

variable {features : Features} {route : InstanceRoute}

theorem mem_allRoutes (h : route ∈ createRoutes features) : route ∈ allRoutes := by
  obtain ⟨group, hgroup, h⟩ := List.mem_flatMap.mp h
  split at h
  · exact List.mem_flatMap.mpr ⟨group, hgroup, h⟩
  · exact absurd h List.not_mem_nil

end

end LiteServer.Http
