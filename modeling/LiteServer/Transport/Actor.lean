import LiteServer.Lib.Channel
import LiteServer.Lib.IndexMap
import LiteServer.Lib.StepSystem
import LiteServer.Transport.Wire

/-!
# The ZMQ actor of a worker

One actor owns the socket of a worker process. It drains the commands of the callers, routes the
worker's frames to them and sweeps what their callers have left behind. The callers, the consumers
of the streams and the tasks that deliver a closing `Error` frame run beside it; each access of
theirs to a channel is one step.

A sender is a handle: the index of its reply slot in `callers` or of its channel in `channels`, in
the order they were created. The hash maps `pending` and `stream_routes` hold handles, so a sender
that is overwritten or removed is gone from the actor while its receiver lives on.

## Ghost state

`frames`, `openedAt`, `isRoute`, `cancelled`, and the record of the deliveries that are over do not
exist in the program. They say which frames the worker sent since a stream was opened, what became
of its route and how its delivery ended.
-/

namespace LiteServer

namespace Transport

/-- A unary caller's reply slot. -/
structure Caller where
  uid : String
  answer : Option Response := none
  /-- The caller has timed out and dropped its receiver. -/
  gone : Bool := false
  deriving DecidableEq, Repr

/-- The channel of one stream. -/
structure StreamChannel where
  streamId : String
  /-- Opened for a custom-route call, whose reply may also be unary. -/
  isRoute : Bool
  /-- The number of frames received before the stream was opened. -/
  openedAt : ℕ
  /-- The route was removed by a client's cancel. -/
  cancelled : Bool := false
  chan : Chan StreamResponse
  deriving DecidableEq

/-- How a bounded delivery stands. -/
inductive DeliveryOutcome
  | waiting
  | delivered
  /-- The receiver was dropped. -/
  | abandoned
  /-- The time is over; with the time and the number of frames the consumer had taken out. -/
  | expired (at_ reads : ℕ)
  deriving DecidableEq, Repr

/-- A spawned task that sends one `Error` frame and gives up after `OVERFLOW_DELIVERY_TIMEOUT`. -/
structure Delivery where
  channel : ℕ
  frame : StreamResponse
  since : ℕ
  /-- The number of frames the consumer had taken out when the task was spawned. -/
  reads : ℕ
  outcome : DeliveryOutcome := .waiting
  deriving DecidableEq, Repr

/-- What the constructor of the client is given. -/
structure ActorConfig where
  streamChannelSize : ℕ := 64
  isCb : Bool := false
  deriving DecidableEq, Repr

/-- The actor, the receivers of its senders and the delivery tasks. -/
structure Actor where
  pending : IndexMap String ℕ := .empty
  streamRoutes : IndexMap String ℕ := .empty
  callers : List Caller := []
  channels : List StreamChannel := []
  deliveries : List Delivery := []
  /-- The requests the socket has taken. -/
  sent : List WireRequest := []
  /-- The stream frames received. -/
  frames : List StreamResponse := []
  now : ℕ := 0
  stopped : Bool := false
  deriving DecidableEq

/-- The commands of the callers. -/
inductive ZmqCommand
  | unary (request : WireRequest)
  | stream (request : WireRequest) (streamId : String)
  | raw (request : WireRequest)
  | routeOrStream (request : WireRequest)
  | failAll (reason : String)
  | gracefulCancelAll (reason : String) (graceMs : ℕ)
  | shutdown
  deriving DecidableEq, Repr

/-- What the socket does with each request it is given: take it, or fail with a message. -/
abbrev Socket := WireRequest → Option String

namespace Actor

/-- Send on a reply slot; a caller that is gone receives nothing. -/
def answer (s : Actor) (caller : ℕ) (response : Response) : Actor :=
  { s with callers := s.callers.modify caller fun c =>
      if c.gone then c else { c with answer := some response } }

/-- Rewrite the channel of one stream. -/
def setChan (s : Actor) (channel : ℕ) (chan : Chan StreamResponse) : Actor :=
  { s with channels := s.channels.modify channel fun c => { c with chan } }

/-- The task that delivers a closing frame, as it starts. -/
def newDelivery (s : Actor) (channel : ℕ) (frame : StreamResponse) : Delivery where
  channel
  frame
  since := s.now
  reads := (s.channels[channel]?.map (·.chan.received.length)).getD 0

/-- Spawn the bounded delivery of a closing frame. -/
def spawnDelivery (s : Actor) (channel : ℕ) (frame : StreamResponse) : Actor :=
  { s with deliveries := s.deliveries ++ [s.newDelivery channel frame] }

/-- `release_stream_routes`. -/
def releaseStreamRoutes (s : Actor) (reason : String) : Actor :=
  s.streamRoutes.entries.foldl (fun s e => s.spawnDelivery e.2 (errorFrame e.1 reason))
    { s with streamRoutes := .empty }

/-- Answer every pending caller with an error. -/
def drainPending (s : Actor) (reason : String) : Actor :=
  s.pending.entries.foldl (fun s e => s.answer e.2 (errorResponse e.1 reason))
    { s with pending := .empty }

/-- A cancel on its way to the worker takes the route and the reply slot with it: the worker sends
no closing frame for it. -/
def cancelStream (s : Actor) (streamId : String) : Actor :=
  let s := match s.streamRoutes.get? streamId with
    | some channel => { s with channels := s.channels.modify channel fun c =>
        { c with cancelled := true } }
    | none => s
  { s with streamRoutes := s.streamRoutes.erase streamId, pending := s.pending.erase streamId }

/-- The requests of a list that the socket takes. -/
def sendEach (s : Actor) (send : Socket) (requests : List WireRequest) : Actor :=
  { s with sent := s.sent ++ requests.filter fun r => (send r).isNone }

/-- The new channel of a stream. -/
def newChannel (config : ActorConfig) (s : Actor) (streamId : String) (isRoute : Bool) : Actor :=
  { s with channels := s.channels ++ [{
      streamId, isRoute, openedAt := s.frames.length, chan := .new config.streamChannelSize }] }

/-- The new reply slot of a caller. -/
def newCaller (s : Actor) (uid : String) : Actor :=
  { s with callers := s.callers ++ [{ uid }] }

/-- One command of `drain_commands`. -/
def handleCommand (config : ActorConfig) (send : Socket) (s : Actor) : ZmqCommand → Actor
  | .unary request =>
    let caller := s.callers.length
    let s := s.newCaller request.uid
    match send request with
    | none =>
      { s with sent := s.sent ++ [request], pending := s.pending.insert request.uid caller }
    | some e => s.answer caller (errorResponse request.uid ("ZMQ send: " ++ e))
  | .stream request streamId =>
    let channel := s.channels.length
    let s := s.newChannel config streamId false
    match send request with
    | none =>
      { s with sent := s.sent ++ [request], streamRoutes := s.streamRoutes.insert streamId channel }
    | some e =>
      -- the channel is fresh, so it takes the frame
      match (Chan.new config.streamChannelSize).trySend
        (errorFrame streamId ("ZMQ send: " ++ e)) with
      | .sent chan => s.setChan channel chan
      | .full | .closed => s
  | .raw request =>
    let s := match request.payload with
      | some (.stream streamId (some (.cancel _ _))) => s.cancelStream streamId
      | _ => s
    s.sendEach send [request]
  | .routeOrStream request =>
    let caller := s.callers.length
    let channel := s.channels.length
    let s := (s.newCaller request.uid).newChannel config request.uid true
    match send request with
    | none =>
      { s with
        sent := s.sent ++ [request]
        pending := s.pending.insert request.uid caller
        streamRoutes := s.streamRoutes.insert request.uid channel }
    | some e => s.answer caller (errorResponse request.uid ("ZMQ send: " ++ e))
  | .failAll reason => (s.drainPending reason).releaseStreamRoutes reason
  | .gracefulCancelAll reason graceMs =>
    s.sendEach send (s.streamRoutes.keys.map fun streamId =>
      buildStreamCancelWith streamId (some reason) graceMs)
  | .shutdown =>
    let s := (s.drainPending "Worker shutting down").releaseStreamRoutes "Worker shutting down"
    { s with stopped := true }

/-- Forward a frame to the stream it belongs to. A full channel is closed by an `Error` frame of the
server's own, delivered outside the actor. -/
def forward (s : Actor) (frame : StreamResponse) : Actor :=
  match s.streamRoutes.get? frame.streamId with
  | none => s
  | some channel =>
    match s.channels[channel]? with
    | none => s
    | some c =>
      match c.chan.trySend frame with
      | .sent chan =>
        let s := s.setChan channel chan
        if frame.isTerminal then { s with streamRoutes := s.streamRoutes.erase frame.streamId }
        else s
      | .full =>
        let s := s.spawnDelivery channel (errorFrame frame.streamId
          "stream truncated: consumer too slow (channel overflow)")
        { s with streamRoutes := s.streamRoutes.erase frame.streamId }
      | .closed => { s with streamRoutes := s.streamRoutes.erase frame.streamId }

/-- The frame the worker's socket has ready. -/
def handleIncoming (s : Actor) : Incoming → Actor
  | .stream frame =>
    let s := { s.forward frame with frames := s.frames ++ [frame] }
    -- a streaming route reply leaves its unused reply slot behind
    if frame.isTerminal then { s with pending := s.pending.erase frame.streamId } else s
  | .reply response =>
    match s.pending.get? response.uid with
    | none => s
    | some caller =>
      -- a unary route reply leaves its unused stream route behind
      { s with
        pending := s.pending.erase response.uid
        streamRoutes := s.streamRoutes.erase response.uid }.answer caller response
  | .garbage => s

/-- The caller of a reply slot is gone. -/
def callerGone (s : Actor) (caller : ℕ) : Bool := s.callers[caller]?.any (·.gone)

/-- The receiver of a channel is gone. -/
def receiverGone (s : Actor) (channel : ℕ) : Bool :=
  s.channels[channel]?.any (·.chan.receiverDropped)

/-- The periodic sweep: `sweep_dead_pending`, then the stream routes. -/
def sweep (config : ActorConfig) (send : Socket) (s : Actor) : Actor :=
  let evicted := s.pending.entries.filter fun e => s.callerGone e.2
  let s := { s with
    pending := s.pending.retain fun _ caller => !s.callerGone caller
    streamRoutes := s.streamRoutes.retain fun _ channel => !s.receiverGone channel }
  if config.isCb then s.sendEach send (evicted.map fun e => cbRemoveRequest e.1) else s

/-! ### The callers, consumers and delivery tasks beside the actor -/

/-- A caller times out. -/
def dropCaller (s : Actor) (caller : ℕ) : Actor :=
  { s with callers := s.callers.modify caller fun c => { c with gone := true } }

end Actor

end Transport

end LiteServer
