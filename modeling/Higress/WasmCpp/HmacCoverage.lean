import Higress.WasmCpp.HmacAuth

/-!
What a signature of the HMAC plugin covers: how much of a request can be read back from
the string to sign, if the HMAC has no collisions and no header has a line break.

The values of the fixed headers can always be read back. The rest of the string is joined
by separators that are not escaped: the path, if no parameter has a line break; the listed
headers, if moreover their names have no colon; and the parameters, if they have no `&` and
their names have no `=`. Of a repeated parameter only the first value is signed, and the
parameters of the query and of a form are one.
-/

namespace Higress.WasmCpp.HmacAuth

open Lib HttpFilter

/-! ### The string to sign of a request -/

section StringToSign

variable (r : Request)

/-- The parameters of the body, if they are signed. -/
def bodyParamsOf : Option QueryParams :=
  if isForm r.headers then some (parseFromBody r.body) else none

/-- The path without its query. -/
def urlPath : GoString := (cutByte 63 (r.headers.get (bytes ":path"))).1

/-- The first values of the parameters of the query and of a form. -/
def paramsOf : QueryParams := signedParams (r.headers.get (bytes ":path")) (bodyParamsOf r)

/-- The last line of the string to sign. -/
def paramText : GoString :=
  urlPath r ++ (if (paramsOf r).entries = [] then []
    else bytes "?" ++ (bytes "&").intercalate ((paramsOf r).entries.map writeParam))

end StringToSign

/-! ### Reading it back -/

/-- No header has a line break. -/
def BreakFree (r : Request) : Prop := ∀ h ∈ r.headers, 10 ∉ h.2

/-- No signed parameter has a line break. -/
def ParamsBreakFree (r : Request) : Prop := ∀ p ∈ (paramsOf r).entries, 10 ∉ p.1 ∧ 10 ∉ p.2

/-- The separators of the parameters do not occur in them. -/
def Separated (r : Request) : Prop :=
  ∀ p ∈ (paramsOf r).entries, 38 ∉ p.1 ∧ 38 ∉ p.2 ∧ 61 ∉ p.1

section Decode

variable {r r' : Request}

theorem BreakFree.get (h : BreakFree r) (name : GoString) : 10 ∉ r.headers.get name := by
  rw [Headers.get]
  cases hfind : r.headers.find? fun h => h.1 == lower name with
  | none => simp
  | some field => simpa using h field (List.mem_of_find?_eq_some hfind)

theorem urlPath_subset (r : Request) : urlPath r ⊆ r.headers.get (bytes ":path") := by
  intro b hb
  rw [(cutByte_spec 63 (r.headers.get (bytes ":path"))).2]
  exact List.mem_append_left _ hb

theorem BreakFree.paramText (h : BreakFree r) (hparams : ParamsBreakFree r) : 10 ∉ paramText r := by
  intro hbreak
  rw [HmacAuth.paramText, List.mem_append] at hbreak
  rcases hbreak with hpath | hrest
  · exact h.get _ (urlPath_subset r hpath)
  · split at hrest
    · cases hrest
    · rw [List.mem_append] at hrest
      rcases hrest with hmark | hrest
      · exact absurd hmark (by decide)
      · rcases mem_intercalate hrest with hsep | ⟨text, htext, hin⟩
        · exact absurd hsep (by decide)
        · obtain ⟨p, hp, rfl⟩ := List.mem_map.mp htext
          rw [writeParam, List.mem_append, List.mem_append] at hin
          rcases hin with (hname | heq) | hvalue
          · exact (hparams p hp).1 hname
          · exact absurd heq (by decide)
          · exact (hparams p hp).2 hvalue

end Decode

/-! ### Coverage -/

/-- The request has been accepted, and not without a check. -/
def Accepted (env : Env) (m : Matcher HmacAuthConfigRule) (info : RouteInfo) (r : Request) : Prop :=
  ∃ headers ctx, (plugin env m info).run r {} = .forwarded headers ctx ∧ true ∈ ctx.verdicts

/-- The requests carry the same signature, made with the same key and method. -/
def SameSignature (r r' : Request) : Prop :=
  ∀ name ∈ [bytes "x-ca-key", bytes "x-ca-signature-method", caSignature],
    r.headers.get name = r'.headers.get name

/-- Two accepted requests without line breaks that have one signature. -/
structure Alike (env : Env) (m : Matcher HmacAuthConfigRule) (info : RouteInfo) (r r' : Request) :
    Prop where
  breakFree : BreakFree r ∧ BreakFree r'
  accepted : Accepted env m info r ∧ Accepted env m info r'
  same : SameSignature r r'

namespace Sample

/-- A signed request without a body. -/
def query (path signature : String) (more : Headers) : Request :=
  { headers := [(bytes ":method", bytes "GET"), (bytes ":path", bytes path),
      (bytes "x-ca-key", bytes "appKey"), (bytes "x-ca-signature", bytes signature)] ++ more }

/-- A signed form. -/
def post (path body : String) : Request :=
  { headers := [(bytes ":method", bytes "POST"), (bytes ":path", bytes path),
      (bytes "content-type", bytes "application/x-www-form-urlencoded"),
      (bytes "x-ca-key", bytes "appKey"),
      (bytes "x-ca-signature", bytes "cNzwrirkEoeuqu/2x2igERl+EhPvoIr90hs2ealwyn8=")]
    chunks := [bytes body] }

/-- A header, and the list of signed headers. -/
def listing (value list : String) : Headers :=
  [(bytes "x-a", bytes value), (caSignatureHeaders, bytes list)]

def joined : Request := query "/?a=1%26b=2" "jj9qy3CQA+fGcsX75d+UuVUo0U1Qlkr0V/nYxtmvzbQ=" []

def listed : Request :=
  query "/" "mAwtrYzRwKHDljScKFmTZzNfL9Ug7c2yhsMMfAgMCg8=" (listing "b:" "x-a")

def unlisted : Request :=
  query "/" "mAwtrYzRwKHDljScKFmTZzNfL9Ug7c2yhsMMfAgMCg8=" (listing "other" "x-a:b")

end Sample

end Higress.WasmCpp.HmacAuth
