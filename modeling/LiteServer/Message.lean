import Mathlib.Data.List.Basic

/-!
# Wire messages and errors

The protobuf messages a worker and the server exchange, and the error type of the server, as far
as the modelled functions read or forward them. Field names are those of `liteserver.proto`.

`Metrics` is forwarded and never read on any modelled path, so it is kept as its encoded bytes;
the payload forms no modelled function looks into (`CBCompletedResponse`, `StreamResponse`) keep
their tag only.
-/

namespace LiteServer

/-- A byte buffer. -/
abbrev Bytes := List UInt8

/-- A string map of the wire format, in the order the map is walked. -/
abbrev StringMap := List (String × String)

/-- Worker execution state: `code` is `"Ok"` or `"Error"`. -/
structure Status where
  code : String
  message : String
  deriving DecidableEq, Repr

/-- Request metadata carried to the worker. -/
structure RequestMeta where
  route : String := ""
  headers : StringMap := []
  clientIp : String := ""
  payload : Bytes := []
  method : String := ""
  query : StringMap := []
  sequenceId : Option String := none
  deriving DecidableEq, Repr

/-- One element of a batch request. -/
structure BatchItem where
  uid : String
  data : Bytes
  deriving DecidableEq, Repr

/-- The request payloads the batch path builds. -/
inductive RequestPayload where
  | single (data : Bytes)
  | batch (items : List BatchItem)
  deriving DecidableEq, Repr

/-- A request to a worker. -/
structure Request where
  uid : String
  requestMeta : Option RequestMeta
  payload : RequestPayload
  deriving DecidableEq, Repr

/-- The answer to one request. -/
structure SingleResponse where
  data : Bytes := []
  status : Option Status := none
  headers : StringMap := []
  statusCode : Int := 0
  mediaType : String := ""
  deriving DecidableEq, Repr

/-- The answer to one element of a batch request. -/
structure BatchItemResponse where
  uid : String
  data : Bytes := []
  status : Option Status := none
  statusCode : Int := 0
  mediaType : String := ""
  headers : StringMap := []
  deriving DecidableEq, Repr

/-- Worker metrics, in encoded form. -/
structure Metrics where
  encoded : Bytes
  deriving DecidableEq, Repr

/-- The payload forms of a worker response. -/
inductive ResponsePayload where
  | single (r : SingleResponse)
  | batch (items : List BatchItemResponse)
  | cbCompleted
  | stream
  deriving DecidableEq, Repr

/-- A worker response. -/
structure Response where
  uid : String
  payload : Option ResponsePayload
  metrics : Option Metrics
  deriving DecidableEq, Repr

/-- `ModelErrorData`: a model-initiated error with its HTTP status. -/
structure ModelErrorData where
  statusCode : ℕ
  errorType : String
  detail : String
  code : Option String
  param : Option String
  headers : Option StringMap
  deriving DecidableEq, Repr

/-- The variants of `AppError` the modelled functions produce or inspect, and `panicked`, which is
not a variant: the panic of the task that serves the request. -/
inductive AppError where
  | modelNotFound (msg : String)
  | modelNotReady (msg : String)
  | inferenceTimeout (msg : String)
  | queueFull (msg : String)
  | workerCrashed (msg : String)
  | validation (msg : String)
  | config (msg : String)
  | transport (msg : String)
  | internal (msg : String)
  | invalidRequestBody (msg : String)
  | workerRecycling (msg : String)
  | streamingCapacityExceeded (msg : String)
  | modelError (data : ModelErrorData)
  | panicked (msg : String)
  deriving DecidableEq, Repr

/-- A fault of the configuration. -/
def AppError.IsConfig (e : AppError) : Prop := ∃ msg, e = .config msg

/-- The `Display` text of an error. -/
def AppError.toText : AppError → String
  | .modelNotFound m => "model not found: " ++ m
  | .modelNotReady m => "model not ready: " ++ m
  | .inferenceTimeout m => "inference timeout: " ++ m
  | .queueFull m => "queue full: " ++ m
  | .workerCrashed m => "worker crashed: " ++ m
  | .validation m => "validation error: " ++ m
  | .config m => "config error: " ++ m
  | .transport m => "transport error: " ++ m
  | .internal m => "internal error: " ++ m
  | .invalidRequestBody m => "invalid request body: " ++ m
  | .workerRecycling m => "worker recycling: " ++ m
  | .streamingCapacityExceeded m => m
  | .modelError d => "model error (" ++ toString d.statusCode ++ "): " ++ d.detail
  | .panicked m => m

end LiteServer
