import LiteServer.Message

/-!
# Messages on a worker's socket

Everything the server sends to a worker process and receives from it, one protobuf message per
frame of the socket. `WireRequest` is `pb::Request` with all its payload forms.
-/

namespace LiteServer

namespace Transport

/-- The action of a `StreamRequest`. -/
inductive StreamAction
  | openStream (data : Bytes) (requestMeta : Option RequestMeta) (decoupled : Option Bool)
  | chunk (data : Bytes)
  | close
  | cancel (reason : Option String) (graceMs : Option ℕ)
  deriving DecidableEq, Repr

/-- The payload forms of `pb::Request`. -/
inductive WirePayload
  | single (data : Bytes)
  | batch (items : List BatchItem)
  | routeCall (data : Bytes)
  | fileChanged (paths : List String)
  | cbAdd (uid : String) (data : Bytes) (requestMeta : Option RequestMeta)
  | cbRemove (uid : String)
  | stop
  | stream (streamId : String) (action : Option StreamAction)
  deriving DecidableEq, Repr

/-- A request on the socket. -/
structure WireRequest where
  uid : String
  requestMeta : Option RequestMeta := none
  payload : Option WirePayload := none
  deriving DecidableEq, Repr

/-- The payload forms of a stream frame. -/
inductive StreamPayload
  | chunk (data : Bytes) (isFinal : Bool)
  | done (metrics : Option Metrics)
  | error (message : String)
  | start (statusCode : Int) (mediaType : String) (headers : StringMap)
  deriving DecidableEq, Repr

/-- A frame of a stream. -/
structure StreamResponse where
  streamId : String
  payload : Option StreamPayload
  deriving DecidableEq, Repr

/-- `Done` and `Error` end a stream. -/
def StreamResponse.isTerminal (f : StreamResponse) : Bool :=
  match f.payload with
  | some (.done _) | some (.error _) => true
  | _ => false

/-- The `Error` frame the server itself ends a stream with. -/
def errorFrame (streamId message : String) : StreamResponse := ⟨streamId, some (.error message)⟩

/-- A frame received from the worker. -/
inductive Incoming
  | stream (frame : StreamResponse)
  /-- A response of any other payload form. -/
  | reply (response : Response)
  /-- Bytes that do not decode. -/
  | garbage
  deriving DecidableEq, Repr

/-- `error_response`. -/
def errorResponse (uid message : String) : Response where
  uid
  payload := some (.single { status := some ⟨"Error", message⟩ })
  metrics := none

/-- `build_stream_cancel_with`: a grace of 0 is left out. -/
def buildStreamCancelWith (streamId : String) (reason : Option String) (graceMs : ℕ) :
    WireRequest where
  uid := "stream-cancel-" ++ streamId
  payload := some (.stream streamId
    (some (.cancel reason (if 0 < graceMs then some graceMs else none))))

/-- The `CbRemove` request for a reply slot that died. -/
def cbRemoveRequest (uid : String) : WireRequest where
  uid
  payload := some (.cbRemove uid)

end Transport

end LiteServer
