import Mathlib.Data.List.Basic
import Mathlib.Data.List.Count

/-!
The exchange of the automatic protocol strategy (`proxy_auto.go`). A request
whose upstream may speak either dialect is preceded by a probe, and for a
legacy upstream by an initialize request and a notification. Each of these
answers in a callback of the host, which may come late or twice.

Callbacks run one after the other, but the cancellation of the request is
run by another goroutine and may fall between any two critical sections of
them. A run is a sequence of callbacks, each with the cancellation steps that
fall into it.
-/

namespace Higress.Mcp.Auto

/-! ### States -/

/-- The values of `AutoExchange.phase`, the terminal markers included. -/
inductive Phase
  | prepared
  | probing
  | probed
  | initializing
  | initialized
  | notifying
  | notified
  | ready
  | dispatching
  | responding
  | failed
  | cancelled
  | completed
  | streamClosed
  deriving DecidableEq

inductive Profile
  | modern
  | legacy
  deriving DecidableEq

structure AutoExchange where
  phase : Phase
  terminal : Bool
  closed : Bool
  cancelReplied : Bool
  businessDispatched : Bool
  profile : Option Profile
  deriving DecidableEq

/-- `proxyExchange`; it is created when the business request is routed. -/
structure ProxyExchange where
  created : Bool
  cancelled : Bool
  closed : Bool
  preparing : Bool
  submitted : Bool
  responding : Bool
  deriving DecidableEq

inductive Request
  | probe
  | initializeRequest
  | notify
  | business
  deriving DecidableEq

/-- The answers of the upstream that let the exchange go on. -/
inductive Answer
  | modern
  | legacy
  | initialized
  | notified
  deriving DecidableEq

/-- What an observer of the exchange sees. -/
inductive Action
  | answered (a : Answer)
  | dispatched (r : Request)
  | responded
  | closed
  deriving DecidableEq

/-- The steps of `request.Cancel()`: it marks the request and then runs the
cleanups of the two exchanges. -/
inductive Cancellation
  | mark
  | auto
  | proxy
  deriving DecidableEq

/-- An exchange with the part of the request context it uses. -/
structure Exchange where
  auto : AutoExchange
  proxy : ProxyExchange
  /-- The context refers to the proxy exchange. -/
  inContext : Bool
  requestCancelled : Bool
  /-- `CtxJsonRpcResponded`. -/
  responded : Bool
  /-- `RouteCall` has installed its callback. -/
  routed : Bool
  /-- The parameters hold `requestState` or `inputResponses`. -/
  continuation : Bool
  /-- The cancellation steps at the coming critical sections. -/
  foreign : List (List Cancellation)
  trace : List Action
  deriving DecidableEq

namespace Exchange

variable (s : Exchange)

/-- A new exchange for a request that may be cancelled already. -/
def init (continuation requestCancelled : Bool) : Exchange where
  auto := ⟨.prepared, false, false, false, false, none⟩
  proxy := ⟨false, false, false, false, false, false⟩
  inContext := false
  requestCancelled := requestCancelled
  responded := false
  routed := false
  continuation := continuation
  foreign := []
  trace := []

def record (a : Action) : Exchange := { s with trace := s.trace ++ [a] }

/-- A response to the downstream. -/
def respond : Exchange := { s.record .responded with responded := true }

/-- `AutoExchange.cancel`, the cleanup of the exchange. -/
def cancelAuto : Exchange :=
  if s.auto.terminal then s
  else { s with auto := { s.auto with terminal := true, phase := .cancelled } }

/-- The cleanup that `registerProxyCancellation` installs. -/
def cancelProxy : Exchange :=
  if s.proxy.created then { s with proxy := { s.proxy with cancelled := true } } else s

def cancelStep : Cancellation → Exchange
  | .mark => { s with requestCancelled := true }
  | .auto => if s.requestCancelled then s.cancelAuto else s
  | .proxy => if s.requestCancelled then s.cancelProxy else s

/-- The place before a critical section, where cancellation may step in. -/
def point : Exchange :=
  match s.foreign with
  | [] => s
  | steps :: rest => steps.foldl cancelStep { s with foreign := rest }

/-- `request.Cancel()` on the host's goroutine. -/
def requestCancel : Exchange :=
  if s.requestCancelled then s
  else ({ s with requestCancelled := true } : Exchange).cancelAuto.cancelProxy

/-! ### Critical sections -/

/-- `take`. -/
def take (expected next : Phase) : Bool × Exchange :=
  let s := s.point
  if s.auto.terminal || s.auto.phase ≠ expected then (false, s)
  else if next = .dispatching then
    if s.auto.businessDispatched then (false, s)
    else (true, { s with auto := { s.auto with phase := next, businessDispatched := true } })
  else (true, { s with auto := { s.auto with phase := next } })

def selectProfile (expected : Phase) (profile : Profile) : Bool × Exchange :=
  let s := s.point
  if s.auto.terminal || s.auto.phase ≠ expected then (false, s)
  else (true, { s with auto := { s.auto with profile := some profile } })

/-- `terminate`; an empty expectation is `none`. -/
def terminate (expected : Option Phase) (terminal : Phase) : Bool × Exchange :=
  let s := s.point
  if s.auto.terminal || (expected ≠ none && expected ≠ some s.auto.phase) then (false, s)
  else (true, { s with auto := { s.auto with terminal := true, phase := terminal } })

/-- `finishProxyRequest`. -/
def finishProxyRequest : Exchange :=
  if s.inContext then { s with proxy := { s.proxy with closed := true }, inContext := false }
  else s

def fail (phase : Phase) : Exchange :=
  match s.terminate (some phase) .failed with
  | (false, s) => s
  | (true, s) => s.respond.finishProxyRequest

def replyCancelled : Exchange :=
  let s := s.point
  if s.auto.terminal && s.auto.phase = .cancelled && !s.auto.closed && !s.auto.cancelReplied then
    ({ s with auto := { s.auto with cancelReplied := true } } : Exchange).respond.finishProxyRequest
  else s

end Exchange

/-! ### The steps of the exchange -/

/-- What the calls of the host come to during a callback. -/
structure Host where
  dispatchErr : Bool
  bodyErr : Bool
  headersErr : Bool
  routeErr : Bool
  foreign : List (List Cancellation)

namespace Exchange

variable (h : Host) (s : Exchange)

/-- `dispatchPreparedMCP`. -/
def dispatch (r : Request) (phase : Phase) : Exchange :=
  if h.dispatchErr then s.fail phase else s.record (.dispatched r)

def registerProxyCancellation : Exchange :=
  if s.inContext then s
  else
    { s with
      proxy := ⟨true, s.requestCancelled, false, false, false, false⟩
      inContext := true }

/-- `routeProxyBusiness`; the result tells whether it returns no error. -/
def routeProxyBusiness : Bool × Exchange :=
  let s := s.registerProxyCancellation.point
  if s.proxy.closed || s.proxy.cancelled || s.proxy.preparing then (false, s)
  else
    let s := { s with proxy := { s.proxy with preparing := true } }
    if h.headersErr || h.routeErr then (false, s)
    else
      let s := ({ s with routed := true } : Exchange).point
      if s.proxy.cancelled || s.proxy.closed then (false, s)
      else (true, { s with proxy := { s.proxy with submitted := true } })

/-- `dispatchBusiness`; resuming the request sends it upstream. -/
def dispatchBusiness : Exchange :=
  match s.take .ready .dispatching with
  | (false, s) => s
  | (true, s) =>
      if h.bodyErr then s.fail .dispatching
      else match s.routeProxyBusiness h with
        | (false, s) => s.fail .dispatching
        | (true, s) => s.record (.dispatched .business)

def ready (phase : Phase) : Exchange :=
  match s.take phase .ready with
  | (false, s) => s
  | (true, s) =>
      if s.auto.profile = some .legacy && s.continuation then s.fail .ready
      else s.dispatchBusiness h

def notify : Exchange :=
  match s.take .initialized .notifying with
  | (false, s) => s
  | (true, s) => s.dispatch h .notify .notifying

/-- The method `initialize`. -/
def sendInitialize : Exchange :=
  match s.take .probed .initializing with
  | (false, s) => s
  | (true, s) => s.dispatch h .initializeRequest .initializing

def probe : Exchange :=
  match s.take .prepared .probing with
  | (false, s) => s
  | (true, s) => s.dispatch h .probe .probing

/-! ### Callbacks -/

/-- `startAuto`; a request already cancelled runs the cleanup at once. -/
def startAuto : Exchange :=
  let s := if s.requestCancelled then s.cancelAuto else s
  (s.probe h).replyCancelled

/-- The callback of the probe, with the decision of `classifyAutoProbe`. -/
def probeCallback (decision : Option Profile) : Exchange :=
  (match s.take .probing .probed with
    | (false, s) => s
    | (true, s) =>
        match decision with
        | none => s.fail .probed
        | some .modern =>
            match (s.record (.answered .modern)).selectProfile .probed .modern with
            | (false, s) => s
            | (true, s) => s.ready h .probed
        | some .legacy =>
            match (s.record (.answered .legacy)).selectProfile .probed .legacy with
            | (false, s) => s
            | (true, s) => s.sendInitialize h).replyCancelled

/-- The callback of the initialize request; every check of the answer that
fails ends in `fail`. -/
def initializeCallback (valid : Bool) : Exchange :=
  (match s.take .initializing .initialized with
    | (false, s) => s
    | (true, s) =>
        if !valid then s.fail .initialized
        else
          match (s.record (.answered .initialized)).selectProfile .initialized .legacy with
          | (false, s) => s
          | (true, s) => s.notify h).replyCancelled

def notifyCallback (valid : Bool) : Exchange :=
  (match s.take .notifying .notified with
    | (false, s) => s
    | (true, s) =>
        if !valid then s.fail .notified
        else (s.record (.answered .notified)).ready h .notified).replyCancelled

/-- What the routed callback does with a response: the callback of
`dispatchBusiness`. `handleBusinessResponse` responds in all its branches. -/
def businessResponse : Exchange :=
  match s.take .dispatching .responding with
  | (false, s) => s.respond
  | (true, s) =>
      match s.terminate (some .responding) .completed with
      | (false, s) => s.respond
      | (true, s) => s.respond.finishProxyRequest

/-- The callback that `routeProxyBusiness` gives to `RouteCall`. -/
def businessCallback : Exchange :=
  let s := s.point
  if s.proxy.closed || s.proxy.responding then s
  else
    let cancelled := s.proxy.cancelled
    let s := { s with proxy := { s.proxy with responding := true } }
    let s :=
      if cancelled then s.respond
      else
        let s := ({ s with responded := false } : Exchange).businessResponse
        if !s.responded then s.respond else s
    s.finishProxyRequest.requestCancel

def closeStream : Exchange :=
  let s := s.point
  let s := { s with auto := { s.auto with closed := true } }
  ((s.record .closed).terminate none .streamClosed).2

/-- `onHttpStreamDone`. -/
def streamDone : Exchange := s.closeStream.finishProxyRequest.requestCancel

end Exchange

/-! ### Runs -/

inductive Event
  | probeCallback (h : Host) (decision : Option Profile)
  | initializeCallback (h : Host) (valid : Bool)
  | notifyCallback (h : Host) (valid : Bool)
  | businessCallback (h : Host)
  | streamDone (h : Host)
  | cancel (c : Cancellation)

def Event.host : Event → Option Host
  | .probeCallback h _ | .initializeCallback h _ | .notifyCallback h _ => some h
  | .businessCallback h | .streamDone h => some h
  | .cancel _ => none

/-- A callback can come once its request has been sent, and then any number of
times. -/
def Event.enabled (s : Exchange) : Event → Bool
  | .probeCallback _ _ => s.trace.contains (.dispatched .probe)
  | .initializeCallback _ _ => s.trace.contains (.dispatched .initializeRequest)
  | .notifyCallback _ _ => s.trace.contains (.dispatched .notify)
  | .businessCallback _ => s.routed
  | .streamDone _ | .cancel _ => true

/-- The event itself. -/
def Event.apply (s : Exchange) : Event → Exchange
  | .probeCallback h decision => s.probeCallback h decision
  | .initializeCallback h valid => s.initializeCallback h valid
  | .notifyCallback h valid => s.notifyCallback h valid
  | .businessCallback _ => s.businessCallback
  | .streamDone _ => s.streamDone
  | .cancel c => s.cancelStep c

def step (s : Exchange) (e : Event) : Option Exchange :=
  if e.enabled s then
    some (e.apply { s with foreign := (e.host.map Host.foreign).getD [] })
  else none

/-- The exchange after the call of `startAuto`. -/
def start (continuation requestCancelled : Bool) (h : Host) : Exchange :=
  ({ Exchange.init continuation requestCancelled with foreign := h.foreign } :
    Exchange).startAuto h

def run (continuation requestCancelled : Bool) (h : Host) (events : List Event) :
    Option Exchange :=
  events.foldlM step (start continuation requestCancelled h)

end Higress.Mcp.Auto
