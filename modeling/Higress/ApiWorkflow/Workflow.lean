import Mathlib.Logic.Function.Basic
import Higress.Lib.Sessions
import Higress.Lib.Text

/-!
The execution of workflows (`api-workflow/main.go` and `api-workflow/workflow/workflow.go`). A
workflow is a list of edges between tasks. The tasks behind the edges from `start` are called when
the body of a request arrives, and the edges from a task are looked at when the task has answered.
A task with several edges into it waits for all of them: a counter for each task is counted down by
each edge that arrives.

The counters are one map of the configuration, which all requests share. The functions of gjson and
sjson and the value of a conditional are parameters.
-/

namespace Higress.ApiWorkflow

open Lib

def taskStart : GoString := bytes "start"

def taskEnd : GoString := bytes "end"

def taskContinue : GoString := bytes "continue"

/-- The key under which the context of a request keeps the counters. -/
def workflowExecStatus : GoString := bytes "workflowExecStatus"

structure Edge where
  source : GoString
  target : GoString
  conditional : GoString
  deriving DecidableEq

/-- A pair of `service_body_replace_keys`. -/
structure BodyReplaceKeyPair where
  fromPath : GoString
  toPath : GoString

structure Node where
  name : GoString
  serviceName : GoString
  servicePort : ℤ
  serviceDomain : GoString
  servicePath : GoString
  serviceMethod : GoString
  serviceHeaders : List (GoString × GoString)
  serviceBodyTmpl : GoString
  serviceBodyReplaceKeys : List BodyReplaceKeyPair

/-- The workflow and `env`; a configuration need not have a list of nodes. -/
structure Config where
  edges : List Edge
  nodes : Option (List Node)
  timeout : ℕ
  maxDepth : ℕ

/-- The map of the nodes; of two with one name the last is kept. -/
def Config.node (cfg : Config) (name : GoString) : Option Node :=
  (cfg.nodes.getD []).reverse.find? fun node => node.name = name

/-! ### The counters -/

/-- `WorkflowExecStatus`. -/
abbrev Status := GoString → Option ℤ

/-- A counter that is not there reads as zero. -/
def Status.count (s : Status) (name : GoString) : ℤ := (s name).getD 0

def Status.dec (s : Status) (name : GoString) : Status :=
  Function.update s name (some (s.count name - 1))

def IsTask (name : GoString) : Prop := name ≠ taskContinue ∧ name ≠ taskEnd

instance (name : GoString) : Decidable (IsTask name) := inferInstanceAs (Decidable (_ ∧ _))

def initStep (result : Status) (edge : Edge) : Option Status :=
  if edge.source = taskStart ∨ ¬ IsTask edge.target then some result
  else (result edge.target).map fun count => Function.update result edge.target (some (count + 1))

/-- `initWorkflowExecStatus`; `none` if an edge leads to no node. -/
def initWorkflowExecStatus (cfg : Config) : Option Status :=
  cfg.edges.foldlM initStep fun name => if (cfg.node name).isSome then some 0 else none

/-- The counters of a configuration that is loaded. -/
def Config.load (cfg : Config) : Option Status :=
  match cfg.nodes with
  | none => some fun _ => none
  | some _ => initWorkflowExecStatus cfg

/-! ### Tasks -/

/-- The bodies that the context of a request keeps: that of the request and those of the tasks. -/
abbrev Bodies := GoString → Option GoString

/-- What the code takes from gjson and sjson, and the value of a conditional for the bodies. -/
structure Libs where
  raw : GoString → GoString
  get : GoString → GoString → Option GoString
  setRaw : GoString → GoString → GoString → Except GoString GoString
  conditional : GoString → Bodies → Except GoString Bool

structure Task where
  host : GoString
  fqdn : GoString
  port : ℤ
  servicePath : GoString
  body : GoString
  headers : List (GoString × GoString)
  method : GoString

section Requests

variable (libs : Libs)

/-- `IsPass`: the edge is passed over. -/
def isPass (edge : Edge) (bodies : Bodies) : Except GoString Bool :=
  if edge.conditional = [] then .ok false
  else (libs.conditional edge.conditional bodies).map (!·)

/-- Where the data of a pair comes from: a body and a path in it. -/
def dataSource (bodies : Bodies) (jsonPath : GoString) : Except GoString (GoString × GoString) :=
  match split jsonPath (bytes "||") with
  | [contextKey, path] =>
      match bodies contextKey with
      | some contextValue => .ok (contextValue, path)
      | none => .error (bytes "context value is not []byte,key is " ++ contextKey)
  | _ => .ok ([], jsonPath)

/-- `WrapperDataByTmplStrAndKeys`. -/
def wrapperData (bodies : Bodies) : List BodyReplaceKeyPair → GoString → Except GoString GoString
  | [], tmpl => .ok tmpl
  | keyPair :: keyPairs, tmpl =>
      (dataSource bodies keyPair.fromPath).bind fun (contextValue, jsonPath) =>
        match
          (if jsonPath = bytes "@all" then some (libs.raw contextValue)
          else libs.get contextValue jsonPath)
        with
        | none => .error (bytes "wrapper body parse failed: not exists " ++ jsonPath)
        | some value =>
            match libs.setRaw tmpl keyPair.toPath value with
            | .error err => .error (bytes "wrapper body parse failed: " ++ err)
            | .ok tmpl => wrapperData bodies keyPairs tmpl

/-- `WrapperTask`, with `wrapperNodeTask` and `wrapperBody`. -/
def wrapperTask (cfg : Config) (edge : Edge) (bodies : Bodies) : Except GoString Task :=
  match cfg.node edge.target with
  | none => .error (bytes "do not find target :" ++ edge.target)
  | some node =>
      match wrapperData libs bodies node.serviceBodyReplaceKeys node.serviceBodyTmpl with
      | .error err =>
          .error (bytes "wrapper body parse failed: wrapper date by tmpl str is " ++
            node.serviceBodyTmpl ++ bytes " ,find  err: " ++ err)
      | .ok body =>
          .ok {
            host := node.serviceDomain
            fqdn := node.serviceName
            port := node.servicePort
            servicePath := node.servicePath
            body
            headers := node.serviceHeaders
            method := node.serviceMethod }

/-- What a request makes the plugin do: call the task behind an edge, send a response, resume the
request, or send a response with the code 500, whose text may show the counters. The plugin panics
if the context has no counters any more. -/
inductive Action where
  | call (edge : Edge) (depth : ℕ) (task : Task) (timeout : ℕ)
  | sendHttpResponse (headers : List (GoString × GoString)) (body : GoString)
  | resume
  | sendResponse (detail text : GoString)
  | statusFailed (status : Status)
  | panicked

/-- What is at hand when edges are followed: the headers and the body of the last answer, the depth,
the bodies of the context, and for each task the error with which it cannot be called, if any. -/
structure Visit where
  headers : List (GoString × GoString)
  body : GoString
  depth : ℕ
  bodies : Bodies
  callError : GoString → Option GoString

/-- `recursive`, up to the callback of the call. -/
def recursive (cfg : Config) (visit : Visit) (edge : Edge) : Except GoString Action :=
  if cfg.maxDepth < visit.depth then .error (bytes "maximum recursion depth reached")
  else if edge.target = taskEnd then .ok (.sendHttpResponse visit.headers visit.body)
  else if edge.target = taskContinue then .ok .resume
  else
    match wrapperTask libs cfg edge visit.bodies with
    | .error err =>
        .error (bytes "workflow exec wrapperTask find error,source is " ++ edge.source ++
          bytes ",target is " ++ edge.target ++ bytes ",error is " ++ err ++ bytes " ")
    | .ok task =>
        match visit.callError edge.target with
        | some err => .error err
        | none => .ok (.call edge visit.depth task (cfg.maxDepth * cfg.timeout % 2 ^ 32))

/-- How an edge arrives at its target: the counters, the ones that were counted down, and what is
done if no further edge is looked at. -/
structure Arrival where
  status : Status
  counted : List GoString
  leave : Option (List Action)

def arrive (next : Edge) (s : Status) : Arrival :=
  if IsTask next.target then
    let s := s.dec next.target
    if 0 < s.count next.target then ⟨s, [next.target], some []⟩
    else if s.count next.target < 0 then ⟨s, [next.target], some [.statusFailed s]⟩
    else ⟨s, [next.target], none⟩
  else ⟨s, [], none⟩

/-- What the walk over the edges from a task leaves: the counters, the edges that were looked at,
the counters that were counted down, and what was done. -/
structure Walk where
  status : Status
  considered : List Edge
  counted : List GoString
  actions : List Action

/-- The loop of the callback over the edges from a task. -/
def nextLoop (cfg : Config) (visit : Visit) (node : GoString) : List Edge → Status → Walk
  | [], s => ⟨s, [], [], []⟩
  | next :: edges, s =>
      if next.source ≠ node then nextLoop cfg visit node edges s
      else
        let arrival := arrive next s
        match arrival.leave with
        | some actions => ⟨arrival.status, [next], arrival.counted, actions⟩
        | none =>
            match isPass libs next visit.bodies with
            | .error err =>
                ⟨arrival.status, [next], arrival.counted,
                  [.sendResponse (bytes "api-workflow.task_check_paas_failed")
                    (bytes "check pass find error:" ++ err)]⟩
            | .ok true =>
                let walk := nextLoop cfg visit node edges (arrival.status.dec next.target)
                ⟨walk.status, next :: walk.considered,
                  arrival.counted ++ next.target :: walk.counted, walk.actions⟩
            | .ok false =>
                match recursive libs cfg visit next with
                | .error err =>
                    ⟨arrival.status, [next], arrival.counted,
                      [.sendResponse (bytes "api-workflow.recursive_failed")
                        (bytes "recursive error:" ++ err)]⟩
                | .ok action =>
                    let walk := nextLoop cfg visit node edges arrival.status
                    ⟨walk.status, next :: walk.considered, arrival.counted ++ walk.counted,
                      action :: walk.actions⟩

/-! ### Requests -/

/-- A request: the bodies of its context, what it has made the plugin do, the calls that have been
answered, by their place in that list, the edges that were looked at and the counters that it has
counted down. -/
structure Request where
  started : Bool := false
  bodies : Bodies := fun _ => none
  actions : List Action := []
  answered : List ℕ := []
  considered : List Edge := []
  counted : List GoString := []

def Request.fresh (_ : Unit) : Request := {}

/-- What happens to a request: its body arrives, or the answer to a call. -/
inductive Happening where
  | body (body : GoString) (callError : GoString → Option GoString)
  | answer (call : ℕ) (statusCode : ℕ) (headers : List (GoString × GoString)) (body : GoString)
      (callError : GoString → Option GoString)

/-- One edge from `start`. -/
def startAction (cfg : Config) (visit : Visit) (edge : Edge) : Action :=
  match recursive libs cfg visit edge with
  | .ok action => action
  | .error err =>
      .sendResponse (bytes "api-workflow.recursive_failed")
        (bytes "workflow plugin recursive failed: " ++ err)

/-- The edges from `start`. -/
def Config.startEdges (cfg : Config) : List Edge :=
  cfg.edges.filter fun edge => edge.source = taskStart

/-- `onHttpRequestBody`. -/
def onHttpRequestBody (cfg : Config) (r : Request) (body : GoString)
    (callError : GoString → Option GoString) : Request :=
  let bodies : Bodies := Function.update r.bodies taskStart (some body)
  { r with
    started := true
    bodies := if cfg.startEdges = [] then r.bodies else bodies
    actions := cfg.startEdges.map (startAction libs cfg ⟨[], body, 1, bodies, callError⟩) }

/-- The headers of the next response: as many empty ones as there are in the answer come first. -/
def nextHeaders (headers : List (GoString × GoString)) : List (GoString × GoString) :=
  List.replicate headers.length ([], []) ++ headers

/-- The callback of a call. -/
def onAnswer (cfg : Config) (s : Status) (r : Request) (call : ℕ) (edge : Edge) (depth : ℕ)
    (statusCode : ℕ) (headers : List (GoString × GoString)) (body : GoString)
    (callError : GoString → Option GoString) : Status × Request :=
  let r := { r with answered := r.answered ++ [call] }
  let bodies : Bodies := Function.update r.bodies edge.target (some body)
  if 400 ≤ statusCode then
    (s, { r with
      actions := r.actions ++ [.sendResponse (bytes "api-workflow.httpCall_failed")
        (bytes "workflow exec task find error,code is " ++ bytes (toString statusCode) ++
          bytes ",body is " ++ body)] })
  else if (bodies workflowExecStatus).isSome then
    (s, { r with bodies, actions := r.actions ++ [.panicked] })
  else
    let walk := nextLoop libs cfg ⟨nextHeaders headers, body, depth + 1, bodies, callError⟩
      edge.target cfg.edges s
    (walk.status, { r with
      bodies
      actions := r.actions ++ walk.actions
      considered := r.considered ++ walk.considered
      counted := r.counted ++ walk.counted })

def handle (cfg : Config) (s : Status) (r : Request) : Happening → Status × Request
  | .body body callError =>
      if r.started then (s, r) else (s, onHttpRequestBody libs cfg r body callError)
  | .answer call statusCode headers body callError =>
      match r.actions[call]? with
      | some (.call edge depth _ _) =>
          if call ∈ r.answered then (s, r)
          else onAnswer libs cfg s r call edge depth statusCode headers body callError
      | _ => (s, r)

end Requests

end Higress.ApiWorkflow
