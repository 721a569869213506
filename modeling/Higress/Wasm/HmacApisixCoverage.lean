import Higress.Wasm.HmacAuthApisix

/-!
What a signature of the plugin `hmac-auth-apisix` covers, if the HMAC has no collisions and
no header has a line break. A line of the string to sign can be read back: a listed name has
no space, and a method has no colon. What is not listed in a way that the signing finds has
no line, whatever the check of the demanded headers makes of it.
-/

namespace Higress.HmacAuthApisix

open Lib HttpFilter

/-! ### Headers -/

/-- The request with one more byte at the end of all headers of a name. -/
def extend (name : GoString) (hs : Headers) : Headers :=
  hs.map fun h => if h.1 = name then (h.1, h.2 ++ [120]) else h

theorem getHttpRequestHeader_extend (name : GoString) (hs : Headers) (key : GoString) :
    getHttpRequestHeader (extend name hs) key =
      (getHttpRequestHeader hs key).map fun value =>
        if lower key = name then value ++ [120] else value := by
  have hsame : (fun h : GoString × GoString => h.1 == lower key) ∘
      (fun h => if h.1 = name then (h.1, h.2 ++ [120]) else h) = fun h => h.1 == lower key := by
    ext h
    by_cases hname : h.1 = name <;> simp [hname]
  rw [getHttpRequestHeader, getHttpRequestHeader, extend, List.find?_map, hsame]
  cases hfind : hs.find? fun h => h.1 == lower key with
  | none => rfl
  | some h =>
      have hkey : h.1 = lower key := by simpa using List.find?_some hfind
      simp only [Option.map_some, hkey]
      split <;> rfl

/-! ### The fields of the `Authorization` header -/

/-- Only a quote ends a match. -/
theorem findFrom_append {b : UInt8} (hb : b ≠ 34) (scan : FieldScan) (s : GoString) :
    findFrom scan (s ++ [b]) = findFrom scan s := by
  induction s generalizing scan with
  | nil =>
      have hnone : (scan.step b).2 = none := by
        cases scan <;> simp only [FieldScan.step, hb, if_false] <;> (repeat' split) <;> rfl
      simp [findFrom, hnone]
  | cons c s ih => rw [List.cons_append, findFrom, findFrom, ih]

/-- The value that is being read. -/
def FieldScan.value : FieldScan → GoString
  | .quoted _ value => value
  | _ => []

theorem FieldScan.step_subset (scan : FieldScan) (b : UInt8) :
    (scan.step b).1.value ⊆ b :: scan.value ∧
      ∀ field ∈ (scan.step b).2, field.2 ⊆ scan.value := by
  cases scan with
  | word key =>
      simp only [step]
      split
      · simp [value]
      · split <;> simp [value]
  | equals key =>
      simp only [step]
      split
      · simp [value]
      · split <;> simp [value]
  | quoted key value =>
      simp only [step]
      split
      · simp [FieldScan.value]
      · simp [FieldScan.value]

/-- A value has only bytes of the text. -/
theorem subset_of_mem_findFrom {scan : FieldScan} {s : GoString} {field : GoString × GoString}
    (h : field ∈ findFrom scan s) : field.2 ⊆ scan.value ++ s := by
  induction s generalizing scan with
  | nil => cases h
  | cons b s ih =>
      obtain ⟨hvalue, hfield⟩ := scan.step_subset b
      rw [findFrom, List.mem_append, Option.mem_toList] at h
      intro x hx
      rcases h with h | h
      · exact List.mem_append_left _ (hfield field h hx)
      · rcases List.mem_append.mp (ih h hx) with hin | hin
        · rcases List.mem_cons.mp (hvalue hin) with rfl | hin
          · simp
          · simp [hin]
        · simp [hin]

/-- What is known of parameters that were read from a text without line breaks. -/
structure HmacParams.Plain (params : HmacParams) : Prop where
  keyId : 10 ∉ params.keyId
  headers : ∀ name ∈ params.headers, 10 ∉ name ∧ 32 ∉ name

theorem HmacParams.Plain.set {params : HmacParams} (h : params.Plain) {field : GoString × GoString}
    (hfield : 10 ∉ field.2) : (params.set field).Plain := by
  rw [HmacParams.set]
  split
  · exact ⟨hfield, h.headers⟩
  · split
    · exact ⟨h.keyId, h.headers⟩
    · split
      · exact ⟨h.keyId, h.headers⟩
      · split
        · split
          · refine ⟨h.keyId, fun name hname => ?_⟩
            obtain ⟨hsub, hspace⟩ := mem_splitOn hname
            exact ⟨fun hbreak => hfield (hsub hbreak), hspace⟩
          · exact h
        · exact h

theorem parseFields_plain {authString : GoString} (h : 10 ∉ authString) :
    (parseFields authString).Plain := by
  have hfields : ∀ field ∈ findAllStringSubmatch (authString.drop signatureStart.length),
      10 ∉ field.2 := by
    intro field hfield hbreak
    have hin := subset_of_mem_findFrom hfield hbreak
    exact h (List.mem_of_mem_drop (by simpa [FieldScan.value] using hin))
  rw [parseFields]
  generalize findAllStringSubmatch (authString.drop signatureStart.length) = fields at hfields
  have hempty : ({} : HmacParams).Plain := ⟨by simp, by simp⟩
  generalize ({} : HmacParams) = params at hempty
  induction fields generalizing params with
  | nil => exact hempty
  | cons field fields ih =>
      exact ih (fun f hf => hfields f (by simp [hf])) _ (hempty.set (hfields field (by simp)))

/-- A letter after the header changes no field. -/
theorem parseFields_append {authString : GoString}
    (h : Strings.startsWith authString signatureStart = true) :
    Strings.startsWith (authString ++ [120]) signatureStart = true ∧
      parseFields (authString ++ [120]) = parseFields authString := by
  obtain ⟨rest, rfl⟩ := List.isPrefixOf_iff_prefix.mp h
  refine ⟨List.isPrefixOf_iff_prefix.mpr ⟨rest ++ [120], by simp⟩, ?_⟩
  rw [parseFields, parseFields, List.append_assoc, List.drop_left, List.drop_left,
    findAllStringSubmatch, findAllStringSubmatch, findFrom_append (by decide)]

/-! ### Verified requests -/

section Verified

variable {env : Env} {cfg : HmacAuthConfig} {now : ℤ} {hs : Headers} {params : HmacParams}

/-- The parameters of a request, without the consumer. -/
def paramsOf (hs : Headers) : HmacParams :=
  parseFields ((getHttpRequestHeader hs (bytes "Authorization")).getD [])

theorem retrieve_eq_ok : retrieveHmacFieldsAndConsumer cfg hs = .ok params ↔
    ∃ authString consumer, getHttpRequestHeader hs (bytes "Authorization") = some authString ∧
      Strings.startsWith authString signatureStart = true ∧
      (parseFields authString).keyId ≠ [] ∧ (parseFields authString).signature ≠ [] ∧
      (parseFields authString).algorithm ≠ [] ∧
      cfg.findConsumer (parseFields authString).keyId = some consumer ∧
      params = { parseFields authString with consumerName := consumer.name } := by
  unfold retrieveHmacFieldsAndConsumer
  cases hauth : getHttpRequestHeader hs (bytes "Authorization") with
  | none => simp
  | some authString =>
      simp only [Option.some.injEq, existsAndEq, true_and]
      cases hstart : Strings.startsWith authString signatureStart with
      | false => simp
      | true =>
          simp only [Bool.not_true, Bool.false_eq_true, if_false, true_and]
          split
          · rename_i hmissing
            simp only [reduceCtorEq, false_iff]
            rintro ⟨consumer, hkey, hsignature, -⟩
            exact hmissing.elim hkey hsignature
          · rename_i hpresent
            split
            · rename_i hmissing
              simp [hmissing]
            · rename_i halgorithm
              cases hconsumer : cfg.findConsumer (parseFields authString).keyId with
              | none => simp
              | some consumer =>
                  simp only [Except.ok.injEq, Option.some.injEq, existsAndEq]
                  constructor
                  · rintro rfl
                    exact ⟨fun h => hpresent (.inl h), fun h => hpresent (.inr h), halgorithm,
                      trivial, rfl⟩
                  · rintro ⟨-, -, -, -, rfl⟩
                    rfl

theorem refusal_eq_none : refusal env cfg now hs params = none ↔
    ¬ (cfg.allow ≠ [] ∧ params.consumerName ∉ cfg.allow) ∧
      (cfg.clockSkew > 0 → validateClockSkew env cfg now hs = none) ∧
      params.algorithm ∈ cfg.allowedAlgorithms ∧ signedHeadersError env cfg hs params = none ∧
      validateSignature env cfg hs params = none := by
  unfold refusal
  split
  · rename_i hdenied
    simp [hdenied]
  · rename_i hallowed
    simp only [hallowed, not_false_eq_true, true_and]
    by_cases hskew : cfg.clockSkew > 0
    · simp only [hskew, if_true, forall_true_left]
      cases validateClockSkew env cfg now hs with
      | some e => simp
      | none =>
          by_cases halgorithm : params.algorithm ∈ cfg.allowedAlgorithms
          · cases signedHeadersError env cfg hs params <;> simp [halgorithm]
          · simp [halgorithm]
    · by_cases halgorithm : params.algorithm ∈ cfg.allowedAlgorithms
      · cases signedHeadersError env cfg hs params <;> simp [hskew, halgorithm]
      · simp [hskew, halgorithm]

/-- Whether a configuration authenticates at all depends on no request. -/
def Authenticates (cfg : HmacAuthConfig) : Prop :=
  ¬ (cfg.globalAuth = some false ∧ cfg.ruleSet = false ∧ cfg.allow = []) ∧
    ¬ (cfg.ruleSet = true ∧ cfg.allow = [] ∧ cfg.globalAuth ≠ some true)

theorem authenticate_eq_verified : authenticate env cfg now hs = .verified params ↔
    Authenticates cfg ∧ retrieveHmacFieldsAndConsumer cfg hs = .ok params ∧
      refusal env cfg now hs params = none := by
  unfold authenticate
  split
  · rename_i hskip
    simp [Authenticates, hskip]
  · rename_i hnoSkip
    split
    · rename_i hnobody
      simp [Authenticates, hnobody]
    · rename_i hsome
      have hgate : Authenticates cfg := ⟨hnoSkip, hsome⟩
      simp only [hgate, true_and]
      cases hparams : retrieveHmacFieldsAndConsumer cfg hs with
      | error e =>
          dsimp only
          split <;> simp
      | ok params' =>
          dsimp only
          cases hrefusal : refusal env cfg now hs params' with
          | some e =>
              simp only [reduceCtorEq, false_iff, Except.ok.injEq, not_and]
              rintro rfl
              simp [hrefusal]
          | none =>
              simp only [Verdict.verified.injEq, Except.ok.injEq]
              constructor
              · rintro rfl
                exact ⟨rfl, hrefusal⟩
              · exact And.left

/-- A verified request goes on with its consumer as the only one. -/
theorem onHttpRequestHeaders_of_verified {s : Stream HttpContext} (hanswer : s.answer = none)
    (h : authenticate env cfg now s.headers = .verified params) :
    (onHttpRequestHeaders env cfg now s).2.answer = none ∧
      (onHttpRequestHeaders env cfg now s).2.headers.values consumerHeader =
        [params.consumerName] := by
  have hnamed : (setConsumerHeader params.consumerName s.headers).values consumerHeader =
      [params.consumerName] := by simp [setConsumerHeader]
  have hhidden : (if cfg.hideCredentials then
      (setConsumerHeader params.consumerName s.headers).remove (bytes "Authorization")
      else setConsumerHeader params.consumerName s.headers).values consumerHeader =
      [params.consumerName] := by
    split
    · rw [Headers.values_remove_of_ne _ (by decide), hnamed]
    · exact hnamed
  rw [onHttpRequestHeaders, h]
  dsimp only
  split
  · exact ⟨hanswer, hhidden⟩
  · exact ⟨hanswer, hhidden⟩

theorem equal_of_hmacSignatureEqual {mac signature : GoString}
    (h : hmacSignatureEqual (Base64.encodeToString mac) signature = true) :
    Base64.decodeString true signature = some mac := by
  rw [hmacSignatureEqual] at h
  split at h
  · cases h
  · rw [Base64.decodeString_encodeToString] at h
    cases hdecode : Base64.decodeString true signature with
    | none => simp [hdecode] at h
    | some actual =>
        simp only [hdecode, Bool.and_eq_true, beq_iff_eq] at h
        rw [h.2]

/-- The signature of a verified request is that of its string to sign. -/
theorem signature_of_validated (h : validateSignature env cfg hs params = none) :
    ∃ consumer hash, cfg.findConsumer params.keyId = some consumer ∧
      hashOf params.algorithm = some hash ∧ Base64.decodeString true params.signature =
        some (env.hmac hash consumer.secretKey (generateSigningString hs params)) := by
  unfold validateSignature at h
  cases hconsumer : cfg.findConsumer params.keyId with
  | none => simp [hconsumer] at h
  | some consumer =>
      cases hhash : hashOf params.algorithm with
      | none => simp [hconsumer, generateHmacSignature, hhash] at h
      | some hash =>
          simp only [hconsumer, generateHmacSignature, hhash, ite_eq_left_iff, reduceCtorEq,
            imp_false, Bool.not_eq_true, Bool.not_eq_false] at h
          exact ⟨consumer, hash, rfl, rfl, equal_of_hmacSignatureEqual h⟩

theorem requiredHeaderError_eq_none (h : signedHeadersError env cfg hs params = none)
    {required : GoString} (hrequired : required ∈ cfg.signedHeaders) :
    requiredHeaderError env hs params.headers required = none := by
  unfold signedHeadersError at h
  split at h
  · rename_i hempty
    simp [hempty] at hrequired
  · split at h
    · cases h
    · exact List.findSome?_eq_none_iff.mp h required hrequired

end Verified

/-! ### Reading the string to sign -/

/-- A request as the gateway hands it on: it has a method and a path, no header has a line
break, and the method has no space and no colon. -/
structure Request where
  headers : Headers
  breakFree : ∀ h ∈ headers, 10 ∉ h.2
  method : ∀ h ∈ headers, h.1 = bytes ":method" → 32 ∉ h.2 ∧ 58 ∉ h.2
  hasMethod : ∃ h ∈ headers, h.1 = bytes ":method"
  hasPath : ∃ h ∈ headers, h.1 = bytes ":path"

section Read

variable (r : Request)

theorem Request.exists_of_header {name value : GoString}
    (h : getHttpRequestHeader r.headers name = some value) :
    ∃ field ∈ r.headers, field.1 = lower name ∧ field.2 = value := by
  obtain ⟨field, hfind, rfl⟩ := Option.map_eq_some_iff.mp h
  exact ⟨field, List.mem_of_find?_eq_some hfind, by simpa using List.find?_some hfind, rfl⟩

theorem Request.header_breakFree {name value : GoString}
    (h : getHttpRequestHeader r.headers name = some value) : 10 ∉ value := by
  obtain ⟨field, hfield, -, rfl⟩ := r.exists_of_header h
  exact r.breakFree field hfield

theorem requestMethod_plain :
    10 ∉ requestMethod r.headers ∧ 32 ∉ requestMethod r.headers ∧ 58 ∉ requestMethod r.headers := by
  rw [requestMethod]
  cases h : getHttpRequestHeader r.headers (bytes ":method") with
  | none => decide
  | some value =>
      obtain ⟨field, hfield, hname, rfl⟩ := r.exists_of_header h
      exact ⟨r.breakFree field hfield, r.method field hfield (by rw [hname]; decide)⟩

theorem requestURI_breakFree : 10 ∉ requestURI r.headers := by
  rw [requestURI]
  cases h : getHttpRequestHeader r.headers (bytes ":path") with
  | none => decide
  | some value =>
      dsimp only
      split
      · decide
      · exact r.header_breakFree h

theorem paramsOf_plain : (paramsOf r.headers).Plain := by
  rw [paramsOf]
  cases h : getHttpRequestHeader r.headers (bytes "Authorization") with
  | none => exact parseFields_plain (by simp)
  | some value => exact parseFields_plain (r.header_breakFree h)

/-- The lines after the first one. -/
def signedItems (hs : Headers) : List GoString :=
  (paramsOf hs).headers.filterMap (signingStringItem hs)

theorem signingStringItem_breakFree {name item : GoString} (hname : 10 ∉ name)
    (h : signingStringItem r.headers name = some item) : 10 ∉ item := by
  have hspace : bytes " " = [32] := by decide
  have hcolon : bytes ": " = [58, 32] := by decide
  rw [signingStringItem] at h
  split at h
  · cases h
    simp [hspace, (requestMethod_plain r).1, requestURI_breakFree r]
  · obtain ⟨value, hvalue, rfl⟩ := Option.map_eq_some_iff.mp h
    simp [hcolon, hname, r.header_breakFree hvalue]

/-- The name and the value that a line stands for; the method is the name of the path. -/
theorem signingStringItem_eq {r : Request} {name : GoString} {item : GoString}
    (h : signingStringItem r.headers name = some item) (hname : 32 ∉ name) :
    ∃ first rest, item = first ++ 32 :: rest ∧ 32 ∉ first ∧
      (name = requestTargetName ∧ 58 ∉ first ∧ first = requestMethod r.headers ∧
          rest = requestURI r.headers ∨
        name ≠ requestTargetName ∧ first = name ++ [58] ∧
          getHttpRequestHeader r.headers name = some rest) := by
  have hspace : bytes " " = [32] := by decide
  have hcolon : bytes ": " = [58, 32] := by decide
  obtain ⟨-, hmethod, hmethodColon⟩ := requestMethod_plain r
  rw [signingStringItem] at h
  split at h
  · rename_i htarget
    cases h
    exact ⟨_, _, by simp [hspace], hmethod, .inl ⟨htarget, hmethodColon, rfl, rfl⟩⟩
  · rename_i hother
    obtain ⟨value, hvalue, rfl⟩ := Option.map_eq_some_iff.mp h
    exact ⟨name ++ [58], value, by simp [hcolon], by simpa using hname, .inr ⟨hother, rfl, hvalue⟩⟩

/-- Equal lines stand for equal names and values. -/
theorem signingStringItem_inj {r r' : Request} {name name' item : GoString}
    (h : signingStringItem r.headers name = some item)
    (h' : signingStringItem r'.headers name' = some item) (hname : 32 ∉ name)
    (hname' : 32 ∉ name') :
    name = requestTargetName ∧ requestMethod r.headers = requestMethod r'.headers ∧
        requestURI r.headers = requestURI r'.headers ∨
      name ≠ requestTargetName ∧
        getHttpRequestHeader r.headers name = getHttpRequestHeader r'.headers name := by
  obtain ⟨first, rest, rfl, hfirst, hr⟩ := signingStringItem_eq h hname
  obtain ⟨first', rest', heq, hfirst', hr'⟩ := signingStringItem_eq h' hname'
  obtain ⟨rfl, rfl⟩ := append_cons_inj_of_notMem hfirst hfirst' heq
  rcases hr with ⟨htarget, hcolon, hmethod, huri⟩ | ⟨hother, hline, hvalue⟩
  · rcases hr' with ⟨-, -, hmethod', huri'⟩ | ⟨-, hline', -⟩
    · exact .inl ⟨htarget, hmethod ▸ hmethod', huri ▸ huri'⟩
    · exact absurd (by simp [hline']) hcolon
  · rcases hr' with ⟨-, hcolon', -⟩ | ⟨-, hline', hvalue'⟩
    · exact absurd (by simp [hline]) hcolon'
    · obtain rfl : name = name' := List.append_cancel_right (hline ▸ hline')
      exact .inr ⟨hother, hvalue.trans hvalue'.symm⟩

end Read

/-! ### Coverage -/

section Coverage

variable (env : Env) (cfg : HmacAuthConfig)

/-- The request gets its consumer from its signature. -/
def Accepted (now : ℤ) (r : Request) : Prop :=
  ∃ params, authenticate env cfg now r.headers = .verified params

/-- The requests carry the same signature, made with the same key and algorithm. -/
def SameSignature (r r' : Request) : Prop :=
  (paramsOf r.headers).keyId = (paramsOf r'.headers).keyId ∧
    (paramsOf r.headers).algorithm = (paramsOf r'.headers).algorithm ∧
    (paramsOf r.headers).signature = (paramsOf r'.headers).signature

/-- The requests agree on what the configuration demands to be signed. -/
def Agree (r r' : Request) : Prop :=
  ∀ required ∈ cfg.signedHeaders,
    if toLower env.caseTable required = requestTargetName then
      requestMethod r.headers = requestMethod r'.headers ∧
        requestURI r.headers = requestURI r'.headers
    else getHttpRequestHeader r.headers required = getHttpRequestHeader r'.headers required

/-- The request lists a header, up to the case of ASCII letters. -/
def Lists (r : Request) (name : GoString) : Prop :=
  ∃ listed ∈ (paramsOf r.headers).headers, lower listed = lower name

/-- What the configuration demands is listed so that the signing finds it: the request target
under its exact name or as the method and the path, a header up to the case of ASCII letters. -/
def ListsRequired (r : Request) : Prop :=
  ∀ required ∈ cfg.signedHeaders,
    if toLower env.caseTable required = requestTargetName then
      requestTargetName ∈ (paramsOf r.headers).headers ∨
        Lists r (bytes ":method") ∧ Lists r (bytes ":path")
    else Lists r required

variable {env cfg} {now now' : ℤ} {r r' : Request}

/-- What is known of an accepted request. -/
theorem Accepted.exists_signature (h : Accepted env cfg now r) :
    ∃ consumer hash, cfg.findConsumer (paramsOf r.headers).keyId = some consumer ∧
      hashOf (paramsOf r.headers).algorithm = some hash ∧
      Base64.decodeString true (paramsOf r.headers).signature = some (env.hmac hash
        consumer.secretKey (unlines ((paramsOf r.headers).keyId :: signedItems r.headers))) := by
  obtain ⟨params, hverified⟩ := h
  obtain ⟨-, hretrieve, hrefusal⟩ := authenticate_eq_verified.mp hverified
  obtain ⟨authString, consumer, hauth, -, -, -, -, -, rfl⟩ := retrieve_eq_ok.mp hretrieve
  have hparams : paramsOf r.headers = parseFields authString := by simp [paramsOf, hauth]
  obtain ⟨-, -, -, -, hvalid⟩ := refusal_eq_none.mp hrefusal
  obtain ⟨signer, hash, hsigner, hhash, hmac⟩ := signature_of_validated hvalid
  have hbreak : bytes "\n" = [10] := by decide
  rw [generateSigningString, hbreak, join_append_break] at hmac
  rw [signedItems, hparams]
  exact ⟨signer, hash, hsigner, hhash, hmac⟩

/-- An accepted request has the headers that are demanded. -/
theorem Accepted.exists_header (h : Accepted env cfg now r) {required : GoString}
    (hrequired : required ∈ cfg.signedHeaders)
    (hother : toLower env.caseTable required ≠ requestTargetName) :
    ∃ value, getHttpRequestHeader r.headers required = some value := by
  obtain ⟨params, hverified⟩ := h
  obtain ⟨-, -, hrefusal⟩ := authenticate_eq_verified.mp hverified
  have hnone := requiredHeaderError_eq_none (refusal_eq_none.mp hrefusal).2.2.2.1 hrequired
  unfold requiredHeaderError at hnone
  rw [if_neg hother] at hnone
  split at hnone
  · cases hnone
  · split at hnone
    · cases hnone
    · rename_i hpresent
      exact Option.ne_none_iff_exists'.mp hpresent

/-- Accepted requests with one signature have the same lines. -/
theorem signedItems_eq (hmac : ∀ hash key, Function.Injective (env.hmac hash key))
    (h : Accepted env cfg now r) (h' : Accepted env cfg now' r') (hsame : SameSignature r r') :
    signedItems r.headers = signedItems r'.headers := by
  obtain ⟨consumer, hash, hconsumer, hhash, hsignature⟩ := h.exists_signature
  obtain ⟨consumer', hash', hconsumer', hhash', hsignature'⟩ := h'.exists_signature
  obtain ⟨hkey, halgorithm, heq⟩ := hsame
  rw [hkey, hconsumer', Option.some.injEq] at hconsumer
  rw [halgorithm, hhash', Option.some.injEq] at hhash
  subst hconsumer hhash
  rw [heq, hsignature', Option.some.injEq] at hsignature
  have hlines := hmac hash' consumer'.secretKey hsignature
  have hfree (q : Request) : ∀ l ∈ (paramsOf q.headers).keyId :: signedItems q.headers, 10 ∉ l := by
    intro l hl
    rcases List.mem_cons.mp hl with rfl | hl
    · exact (paramsOf_plain q).keyId
    · obtain ⟨name, hname, hitem⟩ := List.mem_filterMap.mp hl
      exact signingStringItem_breakFree q ((paramsOf_plain q).headers name hname).1 hitem
  have hends : unlines ((paramsOf r.headers).keyId :: signedItems r.headers) ++ [] =
      unlines ((paramsOf r'.headers).keyId :: signedItems r'.headers) ++ [] := by
    simpa using hlines.symm
  obtain ⟨hall, -⟩ := unlines_append_inj (hfree r) (hfree r') hends (.inr ⟨by simp, by simp⟩)
  exact (List.cons.inj hall).2

/-- What has a line in one request has the same line in the other. -/
theorem same_of_listed (hitems : signedItems r.headers = signedItems r'.headers)
    {name item : GoString} (hlisted : name ∈ (paramsOf r.headers).headers)
    (hitem : signingStringItem r.headers name = some item) :
    name = requestTargetName ∧ requestMethod r.headers = requestMethod r'.headers ∧
        requestURI r.headers = requestURI r'.headers ∨
      name ≠ requestTargetName ∧
        getHttpRequestHeader r.headers name = getHttpRequestHeader r'.headers name := by
  have hin : item ∈ signedItems r'.headers :=
    hitems ▸ List.mem_filterMap.mpr ⟨name, hlisted, hitem⟩
  obtain ⟨name', hlisted', hitem'⟩ := List.mem_filterMap.mp hin
  exact signingStringItem_inj hitem hitem' ((paramsOf_plain r).headers name hlisted).2
    ((paramsOf_plain r').headers name' hlisted').2

theorem getHttpRequestHeader_congr (hs : Headers) {name name' : GoString}
    (h : lower name = lower name') : getHttpRequestHeader hs name = getHttpRequestHeader hs name' := by
  rw [getHttpRequestHeader, getHttpRequestHeader, h]

/-- A header that is listed and that the request has is the same in the other request. -/
theorem Lists.same (hitems : signedItems r.headers = signedItems r'.headers) {name value : GoString}
    (h : Lists r name) (hother : lower name ≠ requestTargetName)
    (hvalue : getHttpRequestHeader r.headers name = some value) :
    getHttpRequestHeader r.headers name = getHttpRequestHeader r'.headers name := by
  obtain ⟨listed, hlisted, hlower⟩ := h
  have htarget : listed ≠ requestTargetName := by
    rintro rfl
    exact hother (hlower ▸ by decide)
  rw [← getHttpRequestHeader_congr _ hlower] at hvalue
  have hitem : signingStringItem r.headers listed = some (listed ++ bytes ": " ++ value) := by
    simp [signingStringItem, htarget, hvalue]
  rcases same_of_listed hitems hlisted hitem with ⟨htarget', -⟩ | ⟨-, heq⟩
  · contradiction
  · rwa [getHttpRequestHeader_congr _ hlower, getHttpRequestHeader_congr _ hlower] at heq

theorem Request.exists_header (r : Request) {name : GoString} (h : ∃ h ∈ r.headers, h.1 = name)
    (hlower : lower name = name) : ∃ value, getHttpRequestHeader r.headers name = some value := by
  obtain ⟨field, hfield, hname⟩ := h
  cases hfind : r.headers.find? fun h => h.1 == lower name with
  | none =>
      have := List.find?_eq_none.mp hfind field hfield
      simp [hname, hlower] at this
  | some found => exact ⟨found.2, by simp [getHttpRequestHeader, hfind]⟩

theorem toLower_eq_target {table : CaseTable} {name : GoString}
    (h : lower name = requestTargetName) : toLower table name = requestTargetName := by
  rw [toLower_eq_lower, h]
  intro b hb
  apply lowerByte_lt
  have hascii : ∀ c ∈ requestTargetName, c < 0x80 := by decide +kernel
  exact hascii _ (h ▸ List.mem_map_of_mem hb)

/-- Requests that list what is demanded agree on it with all others of their signature. -/
theorem agree_of_listsRequired (hmac : ∀ hash key, Function.Injective (env.hmac hash key))
    (h : Accepted env cfg now r) (hlists : ListsRequired env cfg r) (h' : Accepted env cfg now' r')
    (hsame : SameSignature r r') : Agree env cfg r r' := by
  have hitems := signedItems_eq hmac h h' hsame
  intro required hrequired
  have hlisted := hlists required hrequired
  split
  · rename_i htarget
    rw [if_pos htarget] at hlisted
    rcases hlisted with hexact | ⟨hmethod, hpath⟩
    · have hitem : signingStringItem r.headers requestTargetName =
          some (requestMethod r.headers ++ bytes " " ++ requestURI r.headers) := if_pos rfl
      rcases same_of_listed hitems hexact hitem with ⟨-, hboth⟩ | ⟨hne, -⟩
      · exact hboth
      · exact absurd rfl hne
    · obtain ⟨method, hm⟩ := r.exists_header r.hasMethod (by decide)
      obtain ⟨path, hp⟩ := r.exists_header r.hasPath (by decide)
      have hm' := hmethod.same hitems (by decide) hm
      have hp' := hpath.same hitems (by decide) hp
      exact ⟨by rw [requestMethod, requestMethod, hm'], by rw [requestURI, requestURI, hp']⟩
  · rename_i hother
    rw [if_neg hother] at hlisted
    obtain ⟨value, hvalue⟩ := h.exists_header hrequired hother
    exact hlisted.same hitems (fun htarget => hother (toLower_eq_target htarget)) hvalue

/-! ### Requests that are not covered -/

/-- The request with one more byte at the end of all headers of a name. -/
def Request.extend (r : Request) (name : GoString) : Request where
  headers := HmacAuthApisix.extend name r.headers
  breakFree := by
    intro h hh
    obtain ⟨field, hfield, rfl⟩ := List.mem_map.mp hh
    split
    · simpa using r.breakFree field hfield
    · exact r.breakFree field hfield
  method := by
    intro h hh hname
    obtain ⟨field, hfield, rfl⟩ := List.mem_map.mp hh
    split at hname
    · rename_i hsame
      rw [if_pos hsame]
      simpa using r.method field hfield hname
    · rename_i hother
      rw [if_neg hother]
      exact r.method field hfield hname
  hasMethod := by
    obtain ⟨field, hfield, hname⟩ := r.hasMethod
    exact ⟨_, List.mem_map_of_mem hfield, by split <;> exact hname⟩
  hasPath := by
    obtain ⟨field, hfield, hname⟩ := r.hasPath
    exact ⟨_, List.mem_map_of_mem hfield, by split <;> exact hname⟩

/-- The header that is extended is not signed. -/
structure Unsigned (r : Request) (name : GoString) : Prop where
  unlisted : ∀ listed ∈ (paramsOf r.headers).headers, listed ≠ requestTargetName → lower listed ≠ name
  target : requestTargetName ∈ (paramsOf r.headers).headers →
    name ≠ bytes ":method" ∧ name ≠ bytes ":path"

theorem getHttpRequestHeader_extend_of_ne {name key : GoString} (h : lower key ≠ name)
    (hs : Headers) : getHttpRequestHeader (extend name hs) key = getHttpRequestHeader hs key := by
  simp [getHttpRequestHeader_extend, h]

theorem retrieve_extend {hs : Headers} {params : HmacParams} (name : GoString)
    (h : retrieveHmacFieldsAndConsumer cfg hs = .ok params) :
    retrieveHmacFieldsAndConsumer cfg (extend name hs) = .ok params := by
  obtain ⟨authString, consumer, hauth, hstart, hrest⟩ := retrieve_eq_ok.mp h
  apply retrieve_eq_ok.mpr
  by_cases hname : lower (bytes "Authorization") = name
  · obtain ⟨hstart', hfields⟩ := parseFields_append hstart
    refine ⟨authString ++ [120], consumer, ?_, hstart', ?_⟩
    · simp [getHttpRequestHeader_extend, hauth, hname]
    · rwa [hfields]
  · exact ⟨authString, consumer, by rw [getHttpRequestHeader_extend_of_ne hname, hauth], hstart, hrest⟩

theorem paramsOf_of_retrieve {hs : Headers} {params : HmacParams}
    (h : retrieveHmacFieldsAndConsumer cfg hs = .ok params) :
    { paramsOf hs with consumerName := params.consumerName } = params := by
  obtain ⟨authString, consumer, hauth, -, -, -, -, -, rfl⟩ := retrieve_eq_ok.mp h
  simp [paramsOf, hauth]

theorem Unsigned.signingStringItem_eq {name : GoString} (h : Unsigned r name) {listed : GoString}
    (hlisted : listed ∈ (paramsOf r.headers).headers) :
    signingStringItem (extend name r.headers) listed = signingStringItem r.headers listed := by
  rw [signingStringItem, signingStringItem]
  split
  · rename_i htarget
    obtain ⟨hmethod, hpath⟩ := h.target (htarget ▸ hlisted)
    have hm : lower (bytes ":method") ≠ name := fun heq => hmethod (heq ▸ by decide)
    have hp : lower (bytes ":path") ≠ name := fun heq => hpath (heq ▸ by decide)
    rw [requestMethod, requestMethod, requestURI, requestURI,
      getHttpRequestHeader_extend_of_ne hm, getHttpRequestHeader_extend_of_ne hp]
  · rename_i hother
    rw [getHttpRequestHeader_extend_of_ne (h.unlisted listed hlisted hother)]

/-- A change to a header that is not signed and not the date goes unnoticed. -/
theorem Accepted.extend {name : GoString} (h : Accepted env cfg now r) (hunsigned : Unsigned r name)
    (hdate : name ≠ bytes "date") :
    Accepted env cfg now (r.extend name) ∧ SameSignature r (r.extend name) := by
  obtain ⟨params, hverified⟩ := h
  obtain ⟨hgate, hretrieve, hrefusal⟩ := authenticate_eq_verified.mp hverified
  have hretrieve' := retrieve_extend name hretrieve
  have hparams := paramsOf_of_retrieve hretrieve
  have hparams' := paramsOf_of_retrieve hretrieve'
  refine ⟨⟨params, authenticate_eq_verified.mpr ⟨hgate, hretrieve', ?_⟩⟩, ?_⟩
  · obtain ⟨hallow, hskew, halgorithm, hheaders, hvalid⟩ := refusal_eq_none.mp hrefusal
    have hlower : lower (bytes "Date") ≠ name := fun heq => hdate (heq ▸ by decide)
    refine refusal_eq_none.mpr ⟨hallow, ?_, halgorithm, ?_, ?_⟩
    · intro hpositive
      rw [← hskew hpositive, validateClockSkew, validateClockSkew]
      simp only [Request.extend, getHttpRequestHeader_extend_of_ne hlower]
    · rw [← hheaders, signedHeadersError, signedHeadersError]
      have hsame : requiredHeaderError env (r.extend name).headers =
          requiredHeaderError env r.headers := by
        ext listed required : 2
        simp [requiredHeaderError, Request.extend, getHttpRequestHeader_extend]
      rw [hsame]
    · have hitems : params.headers.filterMap (signingStringItem (r.extend name).headers) =
          params.headers.filterMap (signingStringItem r.headers) := by
        apply List.filterMap_congr
        intro listed hlisted
        exact hunsigned.signingStringItem_eq (by rw [← hparams] at hlisted; exact hlisted)
      rw [← hvalid, validateSignature, validateSignature, generateSigningString,
        generateSigningString, hitems]
  · refine ⟨?_, ?_, ?_⟩
    · exact (congrArg HmacParams.keyId hparams).trans (congrArg HmacParams.keyId hparams').symm
    · exact (congrArg HmacParams.algorithm hparams).trans
        (congrArg HmacParams.algorithm hparams').symm
    · exact (congrArg HmacParams.signature hparams).trans
        (congrArg HmacParams.signature hparams').symm

/-- A demanded header without the letters `i` and `k` in its name is listed as itself. -/
theorem Accepted.lists_of_plain (h : Accepted env cfg now r) {required : GoString}
    (hrequired : required ∈ cfg.signedHeaders)
    (hplain : ∀ b ∈ lower required, b < 0x80 ∧ b ≠ 105 ∧ b ≠ 107) : Lists r required := by
  obtain ⟨params, hverified⟩ := h
  obtain ⟨-, hretrieve, hrefusal⟩ := authenticate_eq_verified.mp hverified
  have hnone := requiredHeaderError_eq_none (refusal_eq_none.mp hrefusal).2.2.2.1 hrequired
  have hascii : toLower env.caseTable required = lower required :=
    toLower_eq_lower _ fun b hb => lowerByte_lt (hplain _ (List.mem_map_of_mem hb)).1
  unfold requiredHeaderError at hnone
  split at hnone
  · cases hnone
  · rename_i hlisted
    obtain ⟨listed, hin, heq⟩ := List.mem_map.mp (not_not.mp hlisted)
    rw [hascii] at heq
    refine ⟨listed, by rwa [← paramsOf_of_retrieve hretrieve] at hin, ?_⟩
    rw [lower_eq_of_toLower env.caseTable (heq ▸ hplain), heq]

/-- The method and the path of a request show its method and path header. -/
theorem target_extend_ne {name : GoString} (hname : name = bytes ":method" ∨ name = bytes ":path") :
    ¬ (requestMethod r.headers = requestMethod (r.extend name).headers ∧
      requestURI r.headers = requestURI (r.extend name).headers) := by
  have hmethod : lower (bytes ":method") = bytes ":method" := by decide
  have hpath : lower (bytes ":path") = bytes ":path" := by decide
  rintro ⟨hm, hp⟩
  rcases hname with rfl | rfl
  · obtain ⟨value, hvalue⟩ := r.exists_header r.hasMethod hmethod
    simp [requestMethod, Request.extend, getHttpRequestHeader_extend, hvalue, hmethod] at hm
  · obtain ⟨value, hvalue⟩ := r.exists_header r.hasPath hpath
    rw [requestURI, requestURI, Request.extend, getHttpRequestHeader_extend, hvalue] at hp
    simp only [Option.map_some, hpath, if_true, List.append_eq_nil_iff, List.cons_ne_nil,
      and_false, if_false] at hp
    split at hp
    · rename_i hempty
      rw [hempty] at hp
      exact absurd hp (by decide)
    · simp at hp

/-- An accepted request agrees with all accepted requests of its signature on what has to be
signed, if and only if it lists that so that the signing finds it. -/
theorem agrees_iff_listsRequired (hmac : ∀ hash key, Function.Injective (env.hmac hash key))
    (h : Accepted env cfg now r) :
    (∀ now' r', Accepted env cfg now' r' → SameSignature r r' → Agree env cfg r r') ↔
      ListsRequired env cfg r := by
  constructor
  · intro hagree required hrequired
    by_contra hnot
    split at hnot
    · rename_i htarget
      have hno : requestTargetName ∉ (paramsOf r.headers).headers := fun hin => hnot (.inl hin)
      -- one of the method and the path is not listed, and can be changed
      obtain ⟨name, hname, hunlisted, hdate⟩ : ∃ name, (name = bytes ":method" ∨ name = bytes ":path") ∧
          (∀ listed ∈ (paramsOf r.headers).headers, lower listed ≠ name) ∧ name ≠ bytes "date" := by
        by_cases hmethod : Lists r (bytes ":method")
        · refine ⟨bytes ":path", .inr rfl, fun listed hin heq => ?_, by decide⟩
          exact hnot (.inr ⟨hmethod, listed, hin, heq.trans (by decide)⟩)
        · refine ⟨bytes ":method", .inl rfl, fun listed hin heq => ?_, by decide⟩
          exact hmethod ⟨listed, hin, heq.trans (by decide)⟩
      have hunsigned : Unsigned r name :=
        ⟨fun listed hin _ => hunlisted listed hin, fun hin => absurd hin hno⟩
      obtain ⟨haccepted, hsame⟩ := h.extend hunsigned hdate
      have hagrees := hagree now _ haccepted hsame required hrequired
      rw [if_pos htarget] at hagrees
      exact target_extend_ne hname hagrees
    · rename_i hother
      have hnotPlain : ∀ name ∈ [bytes ":method", bytes ":path", bytes "date"],
          lower required ≠ name := by
        intro name hname heq
        have hplain : ∀ n ∈ [bytes ":method", bytes ":path", bytes "date"],
            ∀ b ∈ n, b < 0x80 ∧ b ≠ 105 ∧ b ≠ 107 := by decide +kernel
        exact hnot (h.lists_of_plain hrequired (heq ▸ hplain name hname))
      have hunsigned : Unsigned r (lower required) :=
        ⟨fun listed hin _ heq => hnot ⟨listed, hin, heq⟩,
          fun _ => ⟨hnotPlain _ (by simp), hnotPlain _ (by simp)⟩⟩
      obtain ⟨haccepted, hsame⟩ := h.extend hunsigned (hnotPlain _ (by simp))
      have hagrees := hagree now _ haccepted hsame required hrequired
      obtain ⟨value, hvalue⟩ := h.exists_header hrequired hother
      rw [if_neg hother, Request.extend, getHttpRequestHeader_extend, hvalue] at hagrees
      simp at hagrees
  · intro hlists now' r' h' hsame
    exact agree_of_listsRequired hmac h hlists h' hsame

end Coverage

namespace Sample

/-- The lower case of the characters that matter to ASCII. -/
def caseTable : CaseTable := plainCaseTable

/-- The HMACs of some messages with SHA-256 and the key `sk`. -/
def macs : List (GoString × GoString) :=
  [(bytes "ak\n", [38, 152, 45, 58, 107, 146, 82, 200, 7, 6, 209, 238, 230, 77, 14, 193, 139, 38,
      53, 137, 96, 15, 102, 94, 192, 10, 234, 173, 212, 253, 223, 101]),
    (bytes "ak\nGET /a\n", [60, 14, 111, 47, 39, 243, 133, 226, 100, 212, 145, 15, 84, 222, 55, 110,
      22, 68, 149, 70, 213, 44, 164, 206, 31, 154, 244, 47, 132, 107, 66, 43])]

def env : Env where
  hmac _ _ message := (macs.lookup message).getD (0 :: message)
  parseDate _ := none
  caseTable := caseTable

theorem env_injective (hash : Hash) (key : GoString) : Function.Injective (env.hmac hash key) :=
  tabulated_injective (by decide) (by decide)

def cfg : HmacAuthConfig where
  consumers := [⟨bytes "alice", bytes "ak", bytes "sk"⟩]
  clockSkew := 0
  signedHeaders := [bytes "@request-target"]

/-- The header that lists some names. -/
def authorization (list signature : String) : GoString :=
  bytes "Signature keyId=\"ak\",algorithm=\"hmac-sha256\",headers=\"" ++ bytes list ++
    bytes "\",signature=\"" ++ bytes signature ++ bytes "\""

def request (path list signature : String)
    (h : 10 ∉ bytes path ∧ 10 ∉ authorization list signature) : Request where
  headers := [(bytes ":method", bytes "GET"), (bytes ":path", bytes path),
    (bytes "authorization", authorization list signature)]
  breakFree := by
    have hget : 10 ∉ bytes "GET" := by decide
    simpa [hget] using h
  method := by
    have hnames : bytes ":path" ≠ bytes ":method" ∧ bytes "authorization" ≠ bytes ":method" := by
      decide
    have hget : 32 ∉ bytes "GET" ∧ 58 ∉ bytes "GET" := by decide
    simpa [hnames.1, hnames.2] using hget
  hasMethod := by simp
  hasPath := by simp

/-- A request that lists its target as the signing reads it. -/
def exactTarget : Request :=
  request "/a" "@request-target" "PA5vLyfzheJk1JEPVN43bhZElUbVLKTOH5r0L4RrQis=" (by decide)

/-- A request that lists its target with capital letters. -/
def capital (path : String) (h : 10 ∉ bytes path) : Request :=
  request path "@Request-Target" "JpgtOmuSUsgHBtHu5k0OwYsmNYlgD2ZewArqrdT932U="
    ⟨h, by decide⟩

def isVerified : Verdict → Bool
  | .verified _ => true
  | _ => false

theorem accepted_of_isVerified {now : ℤ} {r : Request}
    (h : isVerified (authenticate env cfg now r.headers) = true) : Accepted env cfg now r := by
  cases hverdict : authenticate env cfg now r.headers with
  | verified params => exact ⟨params, hverdict⟩
  | notRequired => simp [hverdict, isVerified] at h
  | anonymous => simp [hverdict, isVerified] at h
  | refused message => simp [hverdict, isVerified] at h

end Sample

open Sample in
theorem agrees_exactTarget : Accepted env cfg 0 exactTarget ∧
    ∀ now' r', Accepted env cfg now' r' → SameSignature exactTarget r' → Agree env cfg exactTarget r' := by
  have haccepted : Accepted env cfg 0 exactTarget := accepted_of_isVerified (by decide +kernel)
  refine ⟨haccepted, (agrees_iff_listsRequired env_injective haccepted).mpr ?_⟩
  intro required hrequired
  obtain rfl := List.mem_singleton.mp hrequired
  rw [if_pos (by decide +kernel)]
  exact .inl (by decide)

open Sample in
/-- Two requests of one signature for different paths, which list their target with capital
letters. -/
theorem not_agrees_capital : (∀ hash key, Function.Injective (env.hmac hash key)) ∧
    Accepted env cfg 0 (capital "/a" (by decide)) ∧
    Accepted env cfg 0 (capital "/b" (by decide)) ∧
    SameSignature (capital "/a" (by decide)) (capital "/b" (by decide)) ∧
    ¬ Agree env cfg (capital "/a" (by decide)) (capital "/b" (by decide)) := by
  refine ⟨env_injective, accepted_of_isVerified (by decide +kernel),
    accepted_of_isVerified (by decide +kernel), ⟨rfl, rfl, rfl⟩, fun h => ?_⟩
  have hpaths := h (bytes "@request-target") (by simp [cfg])
  rw [if_pos (by decide +kernel)] at hpaths
  exact absurd hpaths.2 (by decide)

end Higress.HmacAuthApisix
