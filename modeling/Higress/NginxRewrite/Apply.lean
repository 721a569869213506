import Higress.Lib.LetterCase
import Higress.Lib.Params
import Higress.Lib.WriteOrder

/-!
The plugin `nginx-rewrite-compatible`. The rules rewrite the path and the query one after the
other and set variables to captured text. Then the variables are written: to the query, to
headers and to the cookies, by the beginning of their names. They are kept in maps, so the order
in which they are written is any.
-/

namespace Higress.NginxRewrite

open Lib

/-! ### Queries and cookies -/

def querySyntax : ParamSyntax where
  sep := 38
  pad := []
  trim := id
  trim_nil := rfl
  trim_trim _ := rfl
  trim_pad _ := rfl
  trim_subset _ := List.Subset.refl _
  sep_pad := by simp

def cookieSyntax : ParamSyntax where
  sep := 59
  pad := [32]
  trim := Strings.trimSpace
  trim_nil := by decide
  trim_trim := Strings.trimSpace_trimSpace
  trim_pad := Strings.trimSpace_space
  trim_subset s := by
    obtain ⟨u, v, hs, -⟩ := Strings.exists_trimSpace s
    intro b hb
    rw [hs]
    simp [hb]
  sep_pad := by decide

def setQueryParam (existing key value : GoString) : GoString :=
  querySyntax.setParam existing key value

def setCookie (existing key value : GoString) : GoString :=
  cookieSyntax.setParam existing key value

def splitPathAndQuery (path : GoString) : GoString × GoString :=
  let cut := cutByte 63 path
  (cut.1, cut.2.getD [])

def buildPath (path query : GoString) : GoString :=
  if query = [] then path else path ++ 63 :: query

def appendQuery (existing suffix : GoString) : GoString :=
  if suffix = [] then existing
  else if existing = [] then suffix
  else existing ++ 38 :: suffix

/-! ### Rules -/

/-- What is used of a compiled regular expression: the positions of a match and of its groups,
and the expansion of templates. -/
structure Regexp where
  findStringSubmatchIndex : GoString → Option (List ℤ)
  replaceAllString : GoString → GoString → GoString
  expandString : GoString → GoString → List ℤ → GoString

inductive Mode
  | brk
  | last
deriving DecidableEq

structure SetVar where
  name : GoString
  captureGroup : ℕ
deriving DecidableEq

structure Rule where
  compiled : Regexp
  replacement : GoString
  queryAppend : GoString := []
  queryTemplate : GoString := []
  setVars : List SetVar := []
  passToUpstream : Bool := false
  mode : Mode := .last

/-- An entry of the maps `vars` and `passHeaders`, which have the same names. -/
structure Var where
  name : GoString
  value : GoString
  pass : Bool
deriving DecidableEq

/-- `vars[name] = value` and `passHeaders[name] = pass`. -/
def putVar (vars : List Var) (v : Var) : List Var := vars.filter (·.name ≠ v.name) ++ [v]

/-- The text of a group, empty if it took no part in the match. -/
def captureGroupValue (currentPath : GoString) (found : List ℤ) (group : ℕ) : GoString :=
  match found[2 * group]?, found[2 * group + 1]? with
  | some start, some stop =>
      if start < 0 ∨ stop < 0 then []
      else (currentPath.take stop.toNat).drop start.toNat
  | _, _ => []

/-- What the rules change. -/
structure Progress where
  path : GoString
  query : GoString
  vars : List Var
  changed : Bool

/-- The query after a rule that matches. -/
def Rule.query (rule : Rule) (currentPath currentQuery : GoString) (found : List ℤ) : GoString :=
  let expandTemplate := fun template => rule.compiled.expandString template currentPath found
  if rule.queryTemplate ≠ [] then expandTemplate rule.queryTemplate
  else if rule.queryAppend ≠ [] then appendQuery currentQuery (expandTemplate rule.queryAppend)
  else currentQuery

def Rule.vars (rule : Rule) (currentPath : GoString) (found : List ℤ) (vars : List Var) :
    List Var :=
  rule.setVars.foldl (fun vars setVar => putVar vars ⟨setVar.name,
    captureGroupValue currentPath found setVar.captureGroup, rule.passToUpstream⟩) vars

inductive Failure
  /-- `request path is empty` -/
  | emptyRequestPath
  /-- `rule %d produced an empty path` -/
  | emptyPath (rule : ℕ)
  /-- `failed to set property for var %q` -/
  | property (var : GoString)
  /-- `failed to set upstream header for var %q` -/
  | upstreamHeader (var : GoString)
  /-- `failed to set request header %q` -/
  | requestHeader (name : GoString)
  /-- `failed to set cookie header` -/
  | cookie
  /-- `failed to replace :path header` -/
  | path
deriving DecidableEq

/-- The loop over the rules, `i` being the number of the next one. -/
def applyRules : ℕ → List Rule → Progress → Except Failure Progress
  | _, [], s => .ok s
  | i, rule :: rules, s =>
      match rule.compiled.findStringSubmatchIndex s.path with
      | none => applyRules (i + 1) rules s
      | some found =>
          let newPath := rule.compiled.replaceAllString s.path rule.replacement
          if newPath = [] then .error (.emptyPath i)
          else
            let s : Progress := {
              path := newPath
              query := rule.query s.path s.query found
              vars := rule.vars s.path found s.vars
              changed := true }
            if rule.mode = .brk then .ok s else applyRules (i + 1) rules s

/-! ### Writing the variables -/

/-- The calls to the host that can fail, and whether they do not. -/
structure Host where
  setProperty : GoString → GoString → Bool
  replaceHttpRequestHeader : GoString → GoString → Bool

/-- The headers of a request, by their names in lower case. -/
abbrev Headers := GoString → Option GoString

/-- The names of headers: in lower case, with `-` for underscores and spaces. -/
def buildRequestHeaderName (table : CaseTable) (name : GoString) : GoString :=
  (toLower table (Strings.trimSpace name)).map fun b => if b = 95 ∨ b = 32 then 45 else b

def headerStart : GoString := bytes "x-higress-rewrite-var-"

def buildUpstreamHeaderName (table : CaseTable) (name : GoString) : GoString :=
  headerStart ++ buildRequestHeaderName table name

/-- What a variable is for, with the rest of its name. -/
inductive Target
  | arg (name : GoString)
  | http (name : GoString)
  | cookie (name : GoString)
  | property
deriving DecidableEq

def targetOf (name : GoString) : Target :=
  if Strings.startsWith name (bytes "arg_") then .arg (name.drop 4)
  else if Strings.startsWith name (bytes "http_") then .http (name.drop 5)
  else if Strings.startsWith name (bytes "cookie_") then .cookie (name.drop 7)
  else .property

/-- What the loop over the variables changes. -/
structure Written where
  query : GoString
  requestHeaders : List (GoString × GoString)
  requestCookies : List (GoString × GoString)
  headers : Headers

section Write

variable (host : Host) (table : CaseTable)

def writeTarget (w : Written) (v : Var) : Except Failure Written :=
  match targetOf v.name with
  | .arg name => .ok { w with query := setQueryParam w.query name v.value }
  | .http name => .ok { w with
      requestHeaders := putEntry w.requestHeaders (buildRequestHeaderName table name, v.value) }
  | .cookie name => .ok { w with requestCookies := putEntry w.requestCookies (name, v.value) }
  | .property =>
      if v.value ≠ [] ∧ host.setProperty v.name v.value = false then .error (.property v.name)
      else .ok w

def replaceHeader (failure : Failure) (headers : Headers) (name value : GoString) :
    Except Failure Headers :=
  if host.replaceHttpRequestHeader name value then
    .ok (Function.update headers name (some value))
  else .error failure

/-- The header that passes a variable on, or its removal, whose failure is only logged. -/
def writeUpstream (headers : Headers) (v : Var) : Except Failure Headers :=
  let headerName := buildUpstreamHeaderName table v.name
  if v.pass then replaceHeader host (.upstreamHeader v.name) headers headerName v.value
  else .ok (Function.update headers headerName none)

def writeVar (w : Written) (v : Var) : Except Failure Written := do
  let w ← writeTarget host table w v
  let headers ← writeUpstream host table w.headers v
  return { w with headers := headers }

def writeHeader (headers : Headers) (header : GoString × GoString) : Except Failure Headers :=
  replaceHeader host (.requestHeader header.1) headers header.1 header.2

/-- The cookies in their order. -/
def writeCookies (headers : Headers) (cookies : List (GoString × GoString)) :
    Except Failure Headers :=
  if cookies = [] then .ok headers
  else
    let currentCookie := (headers (bytes "cookie")).getD []
    replaceHeader host .cookie headers (bytes "cookie")
      (cookies.foldl (fun cookie c => setCookie cookie c.1 c.2) currentCookie)

def writePath (originalPath finalPath : GoString) (headers : Headers) : Except Failure Headers :=
  if finalPath ≠ originalPath then replaceHeader host .path headers (bytes ":path") finalPath
  else .ok headers

end Write

/-! ### Requests -/

structure Request where
  headers : Headers
  /-- the path that the context has kept -/
  ctxPath : GoString

/-- The path of a request: the header, else what the context has kept. -/
def Request.path (r : Request) : GoString :=
  match r.headers (bytes ":path") with
  | some path => if path = [] then r.ctxPath else path
  | none => r.ctxPath

/-- What is left of a request that was rewritten. -/
structure Rewritten where
  path : GoString
  query : GoString
  headers : Headers

/-- The rules on a request. -/
def rewrite (rules : List Rule) (r : Request) : Except Failure Progress :=
  if r.path = [] then .error .emptyRequestPath
  else
    let (path, query) := splitPathAndQuery r.path
    applyRules 0 rules ⟨path, query, [], false⟩

/-- The part of `Apply` behind the rules, for some order of each of its maps. -/
def Writes (host : Host) (table : CaseTable) (r : Request) (s : Progress) (result : Rewritten) :
    Prop :=
  ∃ (vars : List Var) (w : Written) (requestHeaders cookies : List (GoString × GoString))
    (h₁ h₂ headers : Headers),
    vars.Perm s.vars ∧
    vars.foldlM (writeVar host table) ⟨s.query, [], [], r.headers⟩ = .ok w ∧
    requestHeaders.Perm w.requestHeaders ∧
    requestHeaders.foldlM (writeHeader host) w.headers = .ok h₁ ∧
    cookies.Perm w.requestCookies ∧
    writeCookies host h₁ cookies = .ok h₂ ∧
    writePath host r.path (buildPath s.path w.query) h₂ = .ok headers ∧
    result = ⟨s.path, w.query, headers⟩

/-- `Apply` changes the request to the result. -/
def Applies (host : Host) (table : CaseTable) (rules : List Rule) (r : Request)
    (result : Rewritten) : Prop :=
  ∃ s, rewrite rules r = .ok s ∧ s.changed = true ∧ Writes host table r s result

end Higress.NginxRewrite
