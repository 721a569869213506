import Higress.Lib.HttpFilter
import Higress.WasmCpp.RuleMatcher

/-!
The key authentication plugin (`extensions/key_auth/plugin.cc`).

A consumer has credentials and may have keys of its own, which say in which header or
query parameter its credentials are looked for; all other consumers use the global keys.
A credential at a global key is looked up at once; when there are consumers with keys of
their own, the names of those are passed over, and each of them is then asked in turn,
with a cache of what has been read from the request.

A credential belongs to one consumer entry, but a name need not: an entry without keys
whose name an entry with keys has too is passed over, and nobody asks it.
-/

namespace Higress.WasmCpp.KeyAuth

open Lib HttpFilter

/-- `Consumer`; a set is the list of what was put in. -/
structure Consumer where
  name : GoString
  credentials : List GoString
  keys : Option (List GoString)
  inQuery : Option Bool
  inHeader : Option Bool
deriving DecidableEq

structure KeyAuthConfigRule where
  consumers : List Consumer := []
  credentials : List GoString := []
  credentialToName : List (GoString × GoString) := []
  realm : GoString := bytes "MSE Gateway"
  keys : List GoString := []
  inQuery : Bool := true
  inHeader : Bool := true
deriving DecidableEq

/-! ### The configuration -/

def originalAuthKey : GoString := bytes "X-HI-ORIGINAL-AUTH"

/-- An optional field that must be a boolean, and its value if it is there. -/
def parseFlag (configuration : Json) (field : GoString) : Option (Option Bool) :=
  match find configuration field with
  | none => some none
  | some value => (valueAsBool value).map some

/-- The global keys and where they are looked for; one of the two places is needed. -/
def parseLocation (configuration : Json) (rule : KeyAuthConfigRule) : Option KeyAuthConfigRule := do
  let inQuery ← parseFlag configuration (bytes "in_query")
  let inHeader ← parseFlag configuration (bytes "in_header")
  let inQuery := inQuery.getD rule.inQuery
  let inHeader := inHeader.getD rule.inHeader
  if !inQuery && !inHeader then none
  else some { rule with inQuery := inQuery, inHeader := inHeader }

def parseRealm (configuration : Json) : Option GoString :=
  match find configuration (bytes "realm") with
  | none => some (bytes "MSE Gateway")
  | some value => valueAsString value

/-- The branch of `parsePluginConfig` for credentials without consumers. -/
def parseCredentials (configuration : Json) : Option KeyAuthConfigRule := do
  let credentials ← arrayIterate configuration (bytes "credentials") valueAsString
  let keys ← arrayIterate configuration (bytes "keys") valueAsString
  if keys = [] then none
  else do
    let realm ← parseRealm configuration
    parseLocation configuration
      { credentials := credentials, realm := realm, keys := keys ++ [originalAuthKey] }

/-- A credential is given to a consumer; no two of them may have it. -/
def addCredential (name : GoString) (rule : KeyAuthConfigRule) (credential : GoString) :
    Option KeyAuthConfigRule :=
  if (rule.credentialToName.lookup credential).isSome then none
  else some { rule with
    credentials := rule.credentials ++ [credential]
    credentialToName := rule.credentialToName ++ [(credential, name)] }

/-- The credentials of a consumer, under one of two fields. -/
def consumerCredentials (consumer : Json) : Option (List GoString) :=
  match find consumer (bytes "credential"), find consumer (bytes "credentials") with
  | some _, some _ => none
  | none, none => none
  | some credential, none => (valueAsString credential).map ([·])
  | none, some _ => arrayIterate consumer (bytes "credentials") valueAsString

/-- The keys of its own that a consumer has, and where they are looked for. -/
def consumerKeys (consumer : Json) : Option (Option (List GoString) × Option Bool × Option Bool) :=
  match find consumer (bytes "keys") with
  | none => some (none, none, none)
  | some _ => do
      let keys ← arrayIterate consumer (bytes "keys") valueAsString
      let inQuery ← parseFlag consumer (bytes "in_query")
      let inHeader ← parseFlag consumer (bytes "in_header")
      some (some (originalAuthKey :: keys), inQuery, inHeader)

/-- One round of the loop over the consumers. -/
def parseConsumer (rule : KeyAuthConfigRule) (consumer : Json) : Option KeyAuthConfigRule := do
  let name ← (find consumer (bytes "name")).bind valueAsString
  let credentials ← consumerCredentials consumer
  let rule ← credentials.foldlM (addCredential name) rule
  let (keys, inQuery, inHeader) ← consumerKeys consumer
  some { rule with consumers := rule.consumers ++ [⟨name, credentials, keys, inQuery, inHeader⟩] }

/-- The branch of `parsePluginConfig` for consumers. The global keys are read only if some
consumer has none of its own. -/
def parseConsumers (configuration : Json) : Option KeyAuthConfigRule := do
  let items ← arrayIterate configuration (bytes "consumers") some
  let rule ← items.foldlM parseConsumer {}
  if rule.consumers.any (·.keys.isNone) then do
    let keys ← arrayIterate configuration (bytes "keys") valueAsString
    parseLocation configuration { rule with keys := keys }
  else some rule

def parsePluginConfig (configuration : Json) : Option KeyAuthConfigRule :=
  match find configuration (bytes "consumers"), find configuration (bytes "credentials") with
  | some _, some _ => none
  | none, none => none
  | none, some _ => parseCredentials configuration
  | some _, none => parseConsumers configuration

/-! ### The check -/

def consumerHeader : GoString := bytes "X-Mse-Consumer"

section Check

variable (headers : Headers)

/-- The value of a query parameter of the request, the empty one if it is missing. -/
def queryValue (key : GoString) : GoString :=
  ((parseAndDecodeQueryString (headers.get (bytes ":path"))).get key).getD []

def extractCredential (inHeader inQuery : Bool) (key : GoString) : GoString :=
  if inHeader && headers.get key ≠ [] then headers.get key
  else if inQuery then queryValue headers key
  else []

def hasPerConsumerKeyConfig (consumer : Consumer) : Bool :=
  consumer.keys.isSome || consumer.inHeader.isSome || consumer.inQuery.isSome

variable (rule : KeyAuthConfigRule)

/-- The lookup by credential: the first global key with a known credential whose name is
not passed over. -/
def fastPath (skip : GoString → Bool) : Option GoString :=
  rule.keys.findSome? fun key =>
    let credential := extractCredential headers rule.inHeader rule.inQuery key
    if credential = [] then none
    else (rule.credentialToName.lookup credential).bind fun name =>
      if skip name then none else some name

/-- The cache of the slow path, and the name it has found. -/
structure Walk where
  credentialCache : List (GoString × GoString) := []
  found : Option GoString := none

def cacheKey (key : GoString) (inHeader inQuery : Bool) : GoString :=
  key ++ bytes ":" ++ (if inHeader then bytes "h" else []) ++ (if inQuery then bytes "q" else [])

/-- What one key of a consumer says: the name of its credential there, if it has it. -/
def nameAt (consumer : Consumer) (credential : GoString) : Option GoString :=
  if credential = [] then none
  else if credential ∈ consumer.credentials then rule.credentialToName.lookup credential
  else none

/-- One round of the inner loop of the slow path. -/
def walkKey (consumer : Consumer) (w : Walk) (key : GoString) : Walk :=
  if w.found.isSome then w
  else
    let inQuery := consumer.inQuery.getD rule.inQuery
    let inHeader := consumer.inHeader.getD rule.inHeader
    let cached := cacheKey key inHeader inQuery
    match w.credentialCache.lookup cached with
    | some credential => { w with found := nameAt rule consumer credential }
    | none =>
        let credential := extractCredential headers inHeader inQuery key
        ⟨(cached, credential) :: w.credentialCache, nameAt rule consumer credential⟩

/-- One round of its outer loop. -/
def walkConsumer (w : Walk) (consumer : Consumer) : Walk :=
  (consumer.keys.getD rule.keys).foldl (walkKey headers rule consumer) w

/-- The walk over the consumers with keys of their own. -/
def slowPath (consumers : List Consumer) : Option GoString :=
  (consumers.foldl (walkConsumer headers rule) {}).found

def perConsumerKeyConsumers : List Consumer := rule.consumers.filter hasPerConsumerKeyConfig

/-- The consumer that a request comes from, if there are consumers. -/
def findConsumer : Option GoString :=
  if perConsumerKeyConsumers rule = [] then fastPath headers rule fun _ => false
  else
    let perConsumerNames := (perConsumerKeyConsumers rule).map Consumer.name
    match fastPath headers rule fun name => perConsumerNames.contains name with
    | some name => some name
    | none => slowPath headers rule (perConsumerKeyConsumers rule)

/-- The credential of a request, if there are only credentials. -/
def findCredential : Option GoString :=
  rule.keys.findSome? fun key =>
    let credential := extractCredential headers rule.inHeader rule.inQuery key
    if credential = [] then none
    else if credential ∈ rule.credentials then some credential
    else none

end Check

section Plugin

variable {σ : Type}

def denied (code : ℕ) (reason realm : GoString) (s : Stream σ) : Bool × Stream σ :=
  (false, s.sendLocalResponse ⟨code, bytes "Request denied by Key Auth check. " ++ reason, [],
    [(bytes "WWW-Authenticate", bytes "Key realm=" ++ realm)]⟩)

def deniedInvalidCredentials (realm : GoString) : Stream σ → Bool × Stream σ :=
  denied 401 (bytes "Invalid API key") realm

def deniedUnauthorizedConsumer (realm : GoString) : Stream σ → Bool × Stream σ :=
  denied 403 (bytes "Unauthorized consumer") realm

def checkAllowSet (allowSet : Option AllowSet) (name realm : GoString) (s : Stream σ) :
    Bool × Stream σ :=
  match allowSet with
  | none => (true, s)
  | some names =>
      if names = [] then deniedUnauthorizedConsumer realm s
      else if name ∈ names then (true, s)
      else deniedUnauthorizedConsumer realm s

/-- A consumer has been found: its name is set before it is checked. -/
def admitConsumer (rule : KeyAuthConfigRule) (allowSet : Option AllowSet) (name : GoString)
    (s : Stream σ) : Bool × Stream σ :=
  checkAllowSet allowSet name rule.realm { s with headers := s.headers.add consumerHeader name }

def checkPlugin (rule : KeyAuthConfigRule) (allowSet : Option AllowSet) (s : Stream σ) :
    Bool × Stream σ :=
  let s := { s with headers := s.headers.remove consumerHeader }
  if rule.consumers = [] then
    match findCredential s.headers rule with
    | none => deniedInvalidCredentials rule.realm s
    | some credential =>
        match rule.credentialToName.lookup credential with
        | none => (true, s)
        | some name => admitConsumer rule allowSet name s
  else
    match findConsumer s.headers rule with
    | none => deniedInvalidCredentials rule.realm s
    | some name => admitConsumer rule allowSet name s

end Plugin

/-! ### What a configuration is made of -/

/-- What the lookups of the check rely on. -/
structure WellFormed (rule : KeyAuthConfigRule) : Prop where
  named : ∀ e ∈ rule.consumers, ∀ c ∈ e.credentials, rule.credentialToName.lookup c = some e.name
  owned : ∀ c name, rule.credentialToName.lookup c = some name →
    ∃ e ∈ rule.consumers, c ∈ e.credentials ∧ e.name = name
  sole : ∀ e ∈ rule.consumers, ∀ e' ∈ rule.consumers, ∀ c ∈ e.credentials,
    c ∈ e'.credentials → e = e'
  bare : ∀ e ∈ rule.consumers, e.keys = none → e.inQuery = none ∧ e.inHeader = none

theorem foldlM_addCredential {name : GoString} {credentials : List GoString}
    {rule rule' : KeyAuthConfigRule}
    (h : credentials.foldlM (addCredential name) rule = some rule') :
    rule'.consumers = rule.consumers ∧ rule'.keys = rule.keys ∧
      (∀ c ∈ credentials, rule.credentialToName.lookup c = none) ∧
      ∀ c, rule'.credentialToName.lookup c =
        (rule.credentialToName.lookup c).or (if c ∈ credentials then some name else none) := by
  induction credentials generalizing rule with
  | nil =>
      obtain rfl : rule = rule' := by simpa using h
      simp
  | cons d credentials ih =>
      rw [List.foldlM_cons, Option.bind_eq_bind, Option.bind_eq_some_iff] at h
      obtain ⟨rule₁, hadd, h⟩ := h
      rw [addCredential] at hadd
      split at hadd
      · cases hadd
      · rename_i hnew
        obtain rfl := Option.some.inj hadd
        have hnew : rule.credentialToName.lookup d = none := Option.not_isSome_iff_eq_none.mp hnew
        obtain ⟨hconsumers, hkeys, hfree, hlookup⟩ := ih h
        refine ⟨hconsumers, hkeys, fun c hc => ?_, fun c => ?_⟩
        · rcases List.mem_cons.mp hc with rfl | hc
          · exact hnew
          · have := hfree c hc
            rw [List.lookup_append, Option.or_eq_none_iff] at this
            exact this.1
        · rw [hlookup, List.lookup_append, Option.or_assoc]
          congr 1
          by_cases hcd : c = d
          · simp [hcd]
          · have hne : (c == d) = false := by simpa using hcd
            simp [List.lookup_cons, hne, hcd]

/-- A consumer that has no keys has no places either. -/
theorem consumerKeys_bare {consumer : Json} {keys : Option (List GoString)}
    {inQuery inHeader : Option Bool} (h : consumerKeys consumer = some (keys, inQuery, inHeader))
    (hkeys : keys = none) : inQuery = none ∧ inHeader = none := by
  rw [consumerKeys] at h
  split at h
  · cases h
    exact ⟨rfl, rfl⟩
  · simp only [Option.bind_eq_bind, Option.bind_eq_some_iff, Option.some.injEq, Prod.mk.injEq] at h
    obtain ⟨_, -, _, -, _, -, hsome, -⟩ := h
    rw [hkeys] at hsome
    cases hsome

theorem WellFormed.parseConsumer {rule rule' : KeyAuthConfigRule} {consumer : Json}
    (hw : WellFormed rule) (h : parseConsumer rule consumer = some rule') :
    WellFormed rule' ∧ rule'.keys = rule.keys := by
  simp only [KeyAuth.parseConsumer, Option.bind_eq_bind, Option.bind_eq_some_iff,
    Option.some.injEq] at h
  obtain ⟨name, -, credentials, -, rule₁, hadd, ⟨keys, inQuery, inHeader⟩, hkeys, rfl⟩ := h
  obtain ⟨hconsumers, hglobal, hfree, hlookup⟩ := foldlM_addCredential hadd
  have hmem (e : Consumer) : e ∈ rule₁.consumers ++ [⟨name, credentials, keys, inQuery, inHeader⟩] ↔
      e ∈ rule.consumers ∨ e = ⟨name, credentials, keys, inQuery, inHeader⟩ := by
    rw [hconsumers, List.mem_append, List.mem_singleton]
  -- a credential of an earlier entry is none of those just read
  have hold {e : Consumer} (he : e ∈ rule.consumers) {c : GoString} (hc : c ∈ e.credentials) :
      c ∉ credentials := by
    intro hnew
    have := hfree c hnew
    rw [hw.named e he c hc] at this
    cases this
  refine ⟨⟨fun e he c hc => ?_, fun c owner hc => ?_, fun e he e' he' c hc hc' => ?_,
    fun e he hnone => ?_⟩, hglobal⟩
  · rw [hlookup]
    rcases (hmem e).mp he with he | rfl
    · rw [hw.named e he c hc, Option.some_or]
    · rw [hfree c hc, Option.none_or, if_pos hc]
  · rw [hlookup] at hc
    cases hbefore : rule.credentialToName.lookup c with
    | some owner' =>
        rw [hbefore, Option.some_or] at hc
        obtain ⟨e, he, hce, hname⟩ := hw.owned c owner' hbefore
        exact ⟨e, (hmem e).mpr (.inl he), hce, hname.trans (Option.some.inj hc)⟩
    | none =>
        rw [hbefore, Option.none_or] at hc
        obtain ⟨hnew, rfl⟩ : c ∈ credentials ∧ name = owner := by simpa using hc
        exact ⟨_, (hmem _).mpr (.inr rfl), hnew, rfl⟩
  · rcases (hmem e).mp he with he | rfl <;> rcases (hmem e').mp he' with he' | rfl
    · exact hw.sole e he e' he' c hc hc'
    · exact absurd hc' (hold he hc)
    · exact absurd hc (hold he' hc')
    · rfl
  · rcases (hmem e).mp he with he | rfl
    · exact hw.bare e he hnone
    · exact consumerKeys_bare hkeys hnone

theorem WellFormed.foldlM {items : List Json} {rule rule' : KeyAuthConfigRule}
    (hw : WellFormed rule) (h : items.foldlM KeyAuth.parseConsumer rule = some rule') :
    WellFormed rule' ∧ rule'.keys = rule.keys := by
  induction items generalizing rule with
  | nil =>
      obtain rfl : rule = rule' := by simpa using h
      exact ⟨hw, rfl⟩
  | cons item items ih =>
      rw [List.foldlM_cons, Option.bind_eq_bind, Option.bind_eq_some_iff] at h
      obtain ⟨rule₁, hone, h⟩ := h
      obtain ⟨hw₁, hkeys₁⟩ := hw.parseConsumer hone
      obtain ⟨hw', hkeys'⟩ := ih hw₁ h
      exact ⟨hw', hkeys'.trans hkeys₁⟩

theorem parseLocation_eq_some {configuration : Json} {rule rule' : KeyAuthConfigRule}
    (h : parseLocation configuration rule = some rule') :
    rule'.consumers = rule.consumers ∧ rule'.credentialToName = rule.credentialToName := by
  simp only [parseLocation, Option.bind_eq_bind, Option.bind_eq_some_iff] at h
  obtain ⟨_, -, _, -, h⟩ := h
  split at h
  · cases h
  · cases h
    exact ⟨rfl, rfl⟩

/-- An accepted configuration is well formed, and there are global keys only if some
entry uses them. -/
theorem wellFormed_of_parse {configuration : Json} {rule : KeyAuthConfigRule}
    (h : parsePluginConfig configuration = some rule) (hne : rule.consumers ≠ []) :
    WellFormed rule ∧ (rule.keys ≠ [] → ∃ e ∈ rule.consumers, e.keys = none) := by
  rw [parsePluginConfig] at h
  split at h
  · cases h
  · cases h
  · simp only [parseCredentials, Option.bind_eq_bind, Option.bind_eq_some_iff] at h
    obtain ⟨_, -, _, -, h⟩ := h
    split at h
    · cases h
    · obtain ⟨_, -, h⟩ := Option.bind_eq_some_iff.mp h
      have hnone := (parseLocation_eq_some h).1
      exact absurd hnone hne
  · simp only [parseConsumers, Option.bind_eq_bind, Option.bind_eq_some_iff] at h
    obtain ⟨items, -, rule₁, hfold, h⟩ := h
    have hstart : WellFormed {} := ⟨by simp, by simp, by simp, by simp⟩
    obtain ⟨hw, hkeys⟩ := hstart.foldlM hfold
    split at h
    · rename_i hneeded
      obtain ⟨_, -, h⟩ := Option.bind_eq_some_iff.mp h
      obtain ⟨hconsumers, hnames⟩ := parseLocation_eq_some h
      obtain ⟨e, he, hbare⟩ := List.any_eq_true.mp hneeded
      refine ⟨⟨?_, ?_, ?_, ?_⟩, fun _ => ⟨e, hconsumers ▸ he, by simpa using hbare⟩⟩
      · rw [hconsumers, hnames]
        exact hw.named
      · rw [hconsumers, hnames]
        exact hw.owned
      · rw [hconsumers]
        exact hw.sole
      · rw [hconsumers]
        exact hw.bare
    · cases h
      exact ⟨hw, fun h => absurd hkeys h⟩

/-! ### The walk with its cache -/

theorem cacheKey_inj {k k' : GoString} {h h' q q' : Bool}
    (heq : cacheKey k h q = cacheKey k' h' q') : k = k' ∧ h = h' ∧ q = q' := by
  have hcolon : bytes ":" = [58] := by decide
  have hmarks (h q : Bool) :
      (58 : UInt8) ∉ (if h then bytes "h" else []) ++ (if q then bytes "q" else []) := by
    cases h <;> cases q <;> decide
  have hsame (h q h' q' : Bool) (hm : (if h then bytes "h" else []) ++ (if q then bytes "q" else []) =
      (if h' then bytes "h" else []) ++ (if q' then bytes "q" else [])) : h = h' ∧ q = q' := by
    revert hm
    cases h <;> cases q <;> cases h' <;> cases q' <;> decide
  -- the marks have no colon, so the last one of a cache key stands before them
  simp only [cacheKey, hcolon, List.append_assoc, List.singleton_append] at heq
  obtain ⟨hk, hm⟩ := append_cons_inj_of_notMem_right (hmarks h q) (hmarks h' q') heq
  exact ⟨hk, hsame h q h' q' hm⟩

section Walk

variable (headers : Headers) (rule : KeyAuthConfigRule)

/-- The cache holds what is read from the request. -/
def Walk.Fresh (w : Walk) : Prop :=
  ∀ key inHeader inQuery credential,
    w.credentialCache.lookup (cacheKey key inHeader inQuery) = some credential →
      credential = extractCredential headers inHeader inQuery key

/-- What an entry reads at a key. -/
def readKey (consumer : Consumer) (key : GoString) : GoString :=
  extractCredential headers (consumer.inHeader.getD rule.inHeader)
    (consumer.inQuery.getD rule.inQuery) key

variable {headers rule}

/-- A loop each of whose rounds keeps what has been found. -/
theorem Walk.foldl_found {α : Type} {step : Walk → α → Walk} {f : α → Option GoString}
    (hstep : ∀ w a, w.Fresh headers → (step w a).Fresh headers ∧ (step w a).found = w.found.or (f a))
    (l : List α) {w : Walk} (hw : w.Fresh headers) :
    (l.foldl step w).Fresh headers ∧ (l.foldl step w).found = w.found.or (l.findSome? f) := by
  induction l generalizing w with
  | nil => simpa using hw
  | cons a l ih =>
      obtain ⟨hfresh, hfound⟩ := hstep w a hw
      obtain ⟨hfresh', hfound'⟩ := ih hfresh
      refine ⟨hfresh', hfound'.trans ?_⟩
      rw [hfound, Option.or_assoc, List.findSome?_cons]
      cases f a <;> rfl

theorem walkKey_found (consumer : Consumer) (w : Walk) (key : GoString) (hw : w.Fresh headers) :
    (walkKey headers rule consumer w key).Fresh headers ∧
      (walkKey headers rule consumer w key).found =
        w.found.or (nameAt rule consumer (readKey headers rule consumer key)) := by
  rw [walkKey]
  split
  · rename_i hsome
    obtain ⟨name, hname⟩ := Option.isSome_iff_exists.mp hsome
    exact ⟨hw, by rw [hname, Option.some_or]⟩
  · rename_i hnone
    rw [Option.not_isSome_iff_eq_none.mp hnone, Option.none_or]
    dsimp only
    split
    · rename_i credential hcached
      rw [hw _ _ _ _ hcached]
      exact ⟨hw, rfl⟩
    · refine ⟨fun k inHeader inQuery credential hlookup => ?_, rfl⟩
      rw [List.lookup_cons] at hlookup
      split at hlookup
      · rename_i hsame
        obtain ⟨rfl, rfl, rfl⟩ := cacheKey_inj (beq_iff_eq.mp hsame)
        exact (Option.some.inj hlookup).symm
      · exact hw _ _ _ _ hlookup

/-- The cache changes nothing: the walk finds what the first of its keys says. -/
theorem slowPath_eq (consumers : List Consumer) :
    slowPath headers rule consumers = consumers.findSome? fun consumer =>
      (consumer.keys.getD rule.keys).findSome? fun key =>
        nameAt rule consumer (readKey headers rule consumer key) := by
  have hempty : ({} : Walk).Fresh headers := by
    intro _ _ _ _ h
    simp at h
  have hround (w : Walk) (consumer : Consumer) (hw : w.Fresh headers) :
      (walkConsumer headers rule w consumer).Fresh headers ∧
        (walkConsumer headers rule w consumer).found = w.found.or
          ((consumer.keys.getD rule.keys).findSome? fun key =>
            nameAt rule consumer (readKey headers rule consumer key)) :=
    Walk.foldl_found (walkKey_found consumer) (consumer.keys.getD rule.keys) hw
  have hall := (Walk.foldl_found hround consumers hempty).2
  simpa [slowPath] using hall

end Walk

/-! ### The decision by entries -/

/-- The request has the credential at a place where the entry is looked for. -/
def Carries (headers : Headers) (rule : KeyAuthConfigRule) (e : Consumer) (v : GoString) : Prop :=
  v ≠ [] ∧ ∃ key ∈ e.keys.getD rule.keys,
    (e.inHeader.getD rule.inHeader = true ∧ headers.get key = v) ∨
      (e.inQuery.getD rule.inQuery = true ∧ queryValue headers key = v)

/-- All that the request has at places of the configuration is the entry's, and some of it
is at a place of the entry. -/
def OnlyFrom (headers : Headers) (rule : KeyAuthConfigRule) (e : Consumer) : Prop :=
  (∀ e' ∈ rule.consumers, ∀ v, Carries headers rule e' v → v ∈ e.credentials) ∧
    ∃ v, Carries headers rule e v

def Allowed (allowSet : Option AllowSet) (name : GoString) : Prop :=
  ∀ names, allowSet = some names → name ∈ names

/-- The check passes, and the request goes on under this name and no other. -/
def AcceptsAs (rule : KeyAuthConfigRule) (allowSet : Option AllowSet) (headers : Headers)
    (name : GoString) : Prop :=
  (checkPlugin rule allowSet ⟨headers, none, ()⟩).1 = true ∧
    (checkPlugin rule allowSet ⟨headers, none, ()⟩).2.headers.values consumerHeader = [name]

/-- What the entries of a configuration say about a request. -/
structure Decides (rule : KeyAuthConfigRule) (allowSet : Option AllowSet) (headers : Headers) :
    Prop where
  sound : ∀ name, AcceptsAs rule allowSet headers name →
    (∃ e ∈ rule.consumers, e.name = name ∧ ∃ c ∈ e.credentials, Carries headers rule e c) ∧
      Allowed allowSet name
  complete : ∀ e ∈ rule.consumers, OnlyFrom headers rule e → Allowed allowSet e.name →
    AcceptsAs rule allowSet headers e.name

/-- An entry with keys of its own has this name. -/
def PassedOver (rule : KeyAuthConfigRule) (name : GoString) : Prop :=
  ∃ e ∈ rule.consumers, e.keys.isSome = true ∧ e.name = name

theorem acceptsAs_iff {rule : KeyAuthConfigRule} (hne : rule.consumers ≠ [])
    (allowSet : Option AllowSet) (headers : Headers) (name : GoString) :
    AcceptsAs rule allowSet headers name ↔
      findConsumer (headers.remove consumerHeader) rule = some name ∧ Allowed allowSet name := by
  rw [AcceptsAs, checkPlugin]
  dsimp only
  rw [if_neg hne]
  cases findConsumer (headers.remove consumerHeader) rule with
  | none => simp [deniedInvalidCredentials, denied]
  | some found =>
      simp only [admitConsumer, checkAllowSet, deniedUnauthorizedConsumer, denied, Allowed]
      cases allowSet with
      | none => simp
      | some names =>
          dsimp only
          split
          · rename_i hnil
            simp [hnil]
          · split
            · rename_i hin
              have hsame : found = name → name ∈ names := fun h => h ▸ hin
              simpa using hsame
            · rename_i hout
              have hsame : found = name → name ∉ names := fun h => h ▸ hout
              simpa [Stream.sendLocalResponse] using hsame

section Places

variable {headers : Headers} {rule : KeyAuthConfigRule} {e : Consumer}

theorem extractCredential_cases {inHeader inQuery : Bool} {key : GoString}
    (hne : extractCredential headers inHeader inQuery key ≠ []) :
    (inHeader = true ∧ headers.get key = extractCredential headers inHeader inQuery key) ∨
      (inQuery = true ∧ queryValue headers key = extractCredential headers inHeader inQuery key) := by
  rw [extractCredential] at hne ⊢
  split at hne
  · rename_i h
    simp only [Bool.and_eq_true] at h
    exact .inl ⟨h.1, by rw [if_pos (by simpa using h)]⟩
  · rename_i h
    split at hne
    · rename_i hq
      exact .inr ⟨hq, by rw [if_neg h, if_pos hq]⟩
    · exact absurd rfl hne

/-- What the check reads for an entry is at its places. -/
theorem carries_readKey {key : GoString} (hkey : key ∈ e.keys.getD rule.keys)
    (hne : readKey headers rule e key ≠ []) :
    Carries headers rule e (readKey headers rule e key) :=
  ⟨hne, key, hkey, extractCredential_cases hne⟩

/-- The check reads something for an entry that has something. -/
theorem Carries.readKey_ne_nil {v : GoString} (h : Carries headers rule e v) :
    ∃ key ∈ e.keys.getD rule.keys, readKey headers rule e key ≠ [] := by
  obtain ⟨hne, key, hkey, hplace⟩ := h
  refine ⟨key, hkey, ?_⟩
  rw [readKey, extractCredential]
  rcases hplace with ⟨hin, hv⟩ | ⟨hin, hv⟩
  · simp [hin, hv, hne]
  · split
    · rename_i h
      simp only [Bool.and_eq_true, decide_eq_true_eq] at h
      exact h.2
    · simpa [hin, hv] using hne

/-- The fast path reads what an entry without keys is looked for by. -/
theorem WellFormed.readKey_bare (hw : WellFormed rule) (he : e ∈ rule.consumers)
    (hbare : e.keys = none) (key : GoString) :
    readKey headers rule e key = extractCredential headers rule.inHeader rule.inQuery key := by
  obtain ⟨hq, hh⟩ := hw.bare e he hbare
  simp [readKey, hq, hh]

theorem WellFormed.mem_perConsumer_iff (hw : WellFormed rule) :
    e ∈ perConsumerKeyConsumers rule ↔ e ∈ rule.consumers ∧ e.keys.isSome = true := by
  rw [perConsumerKeyConsumers, List.mem_filter]
  refine and_congr_right fun he => ?_
  cases hkeys : e.keys with
  | some keys => simp [hasPerConsumerKeyConfig, hkeys]
  | none =>
      obtain ⟨hq, hh⟩ := hw.bare e he hkeys
      simp [hasPerConsumerKeyConfig, hkeys, hq, hh]

theorem WellFormed.passedOver_iff (hw : WellFormed rule) (name : GoString) :
    ((perConsumerKeyConsumers rule).map Consumer.name).contains name = true ↔
      PassedOver rule name := by
  simp only [List.contains_eq_mem, decide_eq_true_eq, List.mem_map, hw.mem_perConsumer_iff,
    PassedOver, and_assoc]

theorem nameAt_eq_some (hw : WellFormed rule) (he : e ∈ rule.consumers) {v name : GoString} :
    nameAt rule e v = some name ↔ v ≠ [] ∧ v ∈ e.credentials ∧ e.name = name := by
  rw [nameAt]
  split
  · rename_i hnil
    simp [hnil]
  · rename_i hne
    split
    · rename_i hv
      simp [hw.named e he v hv, hne, hv]
    · rename_i hv
      simp [hv]

/-- A search all of whose finds are the same. -/
theorem findSome?_eq_some_of_forall {α β : Type} {f : α → Option β} {l : List α} {x : β}
    (hall : ∀ a ∈ l, ∀ y, f a = some y → y = x) (hex : ∃ a ∈ l, f a ≠ none) :
    l.findSome? f = some x := by
  cases hfind : l.findSome? f with
  | none =>
      obtain ⟨a, ha, hsome⟩ := hex
      exact absurd (List.findSome?_eq_none_iff.mp hfind a ha) hsome
  | some y =>
      obtain ⟨a, ha, hy⟩ := List.exists_of_findSome?_eq_some hfind
      rw [hall a ha y hy]

/-- The fast path finds an entry without keys whose name is not skipped. -/
theorem fastPath_sound (hw : WellFormed rule) {skip : GoString → Bool}
    (hskip : ∀ name, PassedOver rule name → skip name = true) {name : GoString}
    (h : fastPath headers rule skip = some name) :
    skip name = false ∧ ∃ e ∈ rule.consumers, e.name = name ∧
      ∃ c ∈ e.credentials, Carries headers rule e c := by
  obtain ⟨key, hkey, hfound⟩ := List.exists_of_findSome?_eq_some h
  dsimp only at hfound
  split at hfound
  · cases hfound
  · rename_i hne
    obtain ⟨owner, hlookup, hkeep⟩ := Option.bind_eq_some_iff.mp hfound
    obtain ⟨e, he, hc, rfl⟩ := hw.owned _ _ hlookup
    split at hkeep
    · cases hkeep
    · rename_i hnoskip
      obtain rfl := Option.some.inj hkeep
      have hbare : e.keys = none := by
        by_contra hkeys
        exact hnoskip (hskip _ ⟨e, he, Option.isSome_iff_ne_none.mpr hkeys, rfl⟩)
      rw [← hw.readKey_bare he hbare key] at hne hc
      exact ⟨by simpa using hnoskip, e, he, rfl, _, hc,
        carries_readKey (by simpa [hbare] using hkey) hne⟩

theorem slowPath_sound (hw : WellFormed rule) {name : GoString}
    (h : slowPath headers rule (perConsumerKeyConsumers rule) = some name) :
    ∃ e ∈ rule.consumers, e.name = name ∧ e.keys.isSome = true ∧
      ∃ c ∈ e.credentials, Carries headers rule e c := by
  rw [slowPath_eq] at h
  obtain ⟨e, hmem, h⟩ := List.exists_of_findSome?_eq_some h
  obtain ⟨key, hkey, h⟩ := List.exists_of_findSome?_eq_some h
  obtain ⟨he, hkeys⟩ := hw.mem_perConsumer_iff.mp hmem
  obtain ⟨hne, hc, hname⟩ := (nameAt_eq_some hw he).mp h
  exact ⟨e, he, hname, hkeys, _, hc, carries_readKey hkey hne⟩

/-- Whoever is found has a credential at a place of its own entry, and the entry is not
passed over. -/
theorem findConsumer_sound (hw : WellFormed rule) {name : GoString}
    (h : findConsumer headers rule = some name) :
    ∃ e ∈ rule.consumers, e.name = name ∧ (e.keys.isSome = true ∨ ¬ PassedOver rule name) ∧
      ∃ c ∈ e.credentials, Carries headers rule e c := by
  rw [findConsumer] at h
  split at h
  · rename_i hnone
    have hover (name : GoString) : ¬ PassedOver rule name := by
      rw [← hw.passedOver_iff, hnone]
      simp
    obtain ⟨-, e, he, hname, hc⟩ := fastPath_sound hw (fun name hp => absurd hp (hover name)) h
    exact ⟨e, he, hname, .inr (hover name), hc⟩
  · dsimp only at h
    split at h
    · rename_i found hfast
      obtain rfl := Option.some.inj h
      obtain ⟨hnoskip, e, he, hname, hc⟩ :=
        fastPath_sound hw (fun name hp => (hw.passedOver_iff name).mpr hp) hfast
      refine ⟨e, he, hname, .inr fun hp => ?_, hc⟩
      rw [(hw.passedOver_iff found).mpr hp] at hnoskip
      cases hnoskip
    · obtain ⟨e, he, hname, hkeys, hc⟩ := slowPath_sound hw h
      exact ⟨e, he, hname, .inl hkeys, hc⟩

/-- What is read at the global keys of a request that comes from one entry only. -/
theorem lookup_only (hw : WellFormed rule)
    (hglobal : rule.keys ≠ [] → ∃ g ∈ rule.consumers, g.keys = none) (he : e ∈ rule.consumers)
    (honly : OnlyFrom headers rule e) {key : GoString}
    (hkey : key ∈ rule.keys) (hne : extractCredential headers rule.inHeader rule.inQuery key ≠ []) :
    rule.credentialToName.lookup (extractCredential headers rule.inHeader rule.inQuery key) =
      some e.name := by
  obtain ⟨g, hg, hbare⟩ := hglobal (List.ne_nil_of_mem hkey)
  rw [← hw.readKey_bare hg hbare key] at hne ⊢
  have hcarries := carries_readKey (by simpa [hbare] using hkey) hne
  exact hw.named e he _ (honly.1 g hg _ hcarries)

/-- A request that comes from one entry only is found to come from it, unless the entry
is passed over. -/
theorem findConsumer_complete (hw : WellFormed rule)
    (hglobal : rule.keys ≠ [] → ∃ g ∈ rule.consumers, g.keys = none) (he : e ∈ rule.consumers)
    (honly : OnlyFrom headers rule e) (hseen : e.keys.isSome = true ∨ ¬ PassedOver rule e.name) :
    findConsumer headers rule = some e.name := by
  have hlookup {key : GoString} (hkey : key ∈ rule.keys) := lookup_only hw hglobal he honly hkey
  obtain ⟨v, hv⟩ := honly.2
  obtain ⟨key, hkey, hread⟩ := hv.readKey_ne_nil
  cases hkeys : e.keys with
  | none =>
      rw [hkeys] at hseen hkey
      have hover := hseen.resolve_left (by simp)
      rw [hw.readKey_bare he hkeys] at hread
      have hfast {skip : GoString → Bool} (hskip : skip e.name = false) :
          fastPath headers rule skip = some e.name := by
        apply findSome?_eq_some_of_forall
        · intro k hk y hy
          dsimp only at hy
          split at hy
          · cases hy
          · rename_i hne
            rw [hlookup hk hne] at hy
            have hname : e.name = y := by simpa [hskip] using hy
            exact hname.symm
        · refine ⟨key, hkey, ?_⟩
          dsimp only
          rw [if_neg hread, hlookup hkey hread]
          simp [hskip]
      rw [findConsumer]
      split
      · exact hfast rfl
      · dsimp only
        rw [hfast (by rw [← Bool.not_eq_true, hw.passedOver_iff]; exact hover)]
  | some keys =>
      have hmem : e ∈ perConsumerKeyConsumers rule :=
        hw.mem_perConsumer_iff.mpr ⟨he, by rw [hkeys]; rfl⟩
      have hover : PassedOver rule e.name := ⟨e, he, by rw [hkeys]; rfl, rfl⟩
      have hfast : fastPath headers rule
          (fun name => ((perConsumerKeyConsumers rule).map Consumer.name).contains name) = none := by
        apply List.findSome?_eq_none_iff.mpr
        intro k hk
        dsimp only
        split
        · rfl
        · rename_i hne
          rw [hlookup hk hne, Option.bind_some, if_pos ((hw.passedOver_iff _).mpr hover)]
      rw [findConsumer, if_neg (List.ne_nil_of_mem hmem)]
      dsimp only
      rw [hfast, slowPath_eq]
      -- each entry with keys finds nothing but what is also this entry's
      apply findSome?_eq_some_of_forall
      · intro e' he' y hy
        obtain ⟨k, hk, hy⟩ := List.exists_of_findSome?_eq_some hy
        obtain ⟨he', -⟩ := hw.mem_perConsumer_iff.mp he'
        obtain ⟨hne, hc, rfl⟩ := (nameAt_eq_some hw he').mp hy
        rw [hw.sole e' he' e he _ hc (honly.1 e' he' _ (carries_readKey hk hne))]
      · refine ⟨e, hmem, ?_⟩
        rw [Ne, List.findSome?_eq_none_iff]
        intro hnone
        have hfound : nameAt rule e (readKey headers rule e key) = some e.name :=
          (nameAt_eq_some hw he).mpr ⟨hread, honly.1 e he _ (carries_readKey hkey hread), rfl⟩
        rw [hnone key hkey] at hfound
        cases hfound

/-- Dropping a header takes nothing else away. -/
theorem Carries.of_remove {v : GoString} (h : Carries (headers.remove consumerHeader) rule e v) :
    Carries headers rule e v := by
  obtain ⟨hne, key, hkey, hplace⟩ := h
  refine ⟨hne, key, hkey, ?_⟩
  rcases hplace with ⟨hin, hv⟩ | ⟨hin, hv⟩
  · rw [Headers.get_remove] at hv
    split at hv
    · exact absurd hv.symm hne
    · exact .inl ⟨hin, hv⟩
  · have hpath : lower (bytes ":path") ≠ lower consumerHeader := by decide
    rw [queryValue, Headers.get_remove, if_neg hpath] at hv
    exact .inr ⟨hin, hv⟩

end Places

/-- The check decides by the entries exactly if no entry that a request comes from is
passed over, and none is known only by the header that the check drops. -/
theorem decides_iff {configuration : Json} {rule : KeyAuthConfigRule}
    (h : parsePluginConfig configuration = some rule) (hne : rule.consumers ≠ [])
    (allowSet : Option AllowSet) (headers : Headers) :
    Decides rule allowSet headers ↔
      ∀ e ∈ rule.consumers, OnlyFrom headers rule e → Allowed allowSet e.name →
        (e.keys.isSome = true ∨ ¬ PassedOver rule e.name) ∧
          ∃ v, Carries (headers.remove consumerHeader) rule e v := by
  obtain ⟨hw, hglobal⟩ := wellFormed_of_parse h hne
  constructor
  · intro hd e he honly hallowed
    obtain ⟨hfound, -⟩ := (acceptsAs_iff hne _ _ _).mp (hd.complete e he honly hallowed)
    obtain ⟨e', he', hname, hseen, c, hc, hcarries⟩ := findConsumer_sound hw hfound
    have hown : c ∈ e.credentials := honly.1 e' he' c hcarries.of_remove
    obtain rfl := hw.sole e' he' e he c hc hown
    exact ⟨hseen, c, hcarries⟩
  · intro hcond
    refine ⟨fun name haccepts => ?_, fun e he honly hallowed => ?_⟩
    · obtain ⟨hfound, hallowed⟩ := (acceptsAs_iff hne _ _ _).mp haccepts
      obtain ⟨e, he, hname, -, c, hc, hcarries⟩ := findConsumer_sound hw hfound
      exact ⟨⟨e, he, hname, c, hc, hcarries.of_remove⟩, hallowed⟩
    · obtain ⟨hseen, hkept⟩ := hcond e he honly hallowed
      refine (acceptsAs_iff hne _ _ _).mpr ⟨?_, hallowed⟩
      exact findConsumer_complete hw hglobal he
        ⟨fun e' he' v hv => honly.1 e' he' v hv.of_remove, hkept⟩ hseen

/-! ### Two entries of one name -/

namespace Sample

def consumer (credential : GoString) (more : List (GoString × Json)) : Json :=
  .obj ([(bytes "name", .str (bytes "alice")), (bytes "credential", .str credential)] ++ more)

def keys (key : String) : GoString × Json := (bytes "keys", .arr [.str (bytes key)])

/-- One entry, which uses the global keys. -/
def single : Json :=
  .obj [(bytes "consumers", .arr [consumer (bytes "a") []]), keys "apikey"]

/-- The same entry, and one more of this name with keys of its own. -/
def double : Json :=
  .obj [(bytes "consumers", .arr [consumer (bytes "a") [], consumer (bytes "b") [keys "token"]]),
    keys "apikey"]

def alice : Consumer := ⟨bytes "alice", [bytes "a"], none, none, none⟩

def alice' : Consumer :=
  ⟨bytes "alice", [bytes "b"], some [originalAuthKey, bytes "token"], none, none⟩

def singleRule : KeyAuthConfigRule :=
  { consumers := [alice], credentials := [bytes "a"],
    credentialToName := [(bytes "a", bytes "alice")], keys := [bytes "apikey"] }

def doubleRule : KeyAuthConfigRule :=
  { consumers := [alice, alice'], credentials := [bytes "a", bytes "b"],
    credentialToName := [(bytes "a", bytes "alice"), (bytes "b", bytes "alice")],
    keys := [bytes "apikey"] }

def request : Headers := [(bytes ":path", bytes "/"), (bytes "apikey", bytes "a")]

end Sample

open Sample in
theorem decides_single : parsePluginConfig single = some singleRule ∧
    Decides singleRule none request := by
  have hparse : parsePluginConfig single = some singleRule := by decide
  refine ⟨hparse, (decides_iff hparse (by decide) none request).mpr fun e he _ _ => ?_⟩
  obtain rfl : e = alice := by simpa [singleRule] using he
  refine ⟨.inr ?_, bytes "a", by decide, bytes "apikey", by decide, .inl (by decide)⟩
  rintro ⟨e', he', hkeys, -⟩
  obtain rfl : e' = alice := by simpa [singleRule] using he'
  cases hkeys

open Sample in
/-- The first entry is passed over because of the second one, which does not have the
credential, and the request is refused. -/
theorem not_decides_double : parsePluginConfig double = some doubleRule ∧
    ¬ Decides doubleRule none request := by
  refine ⟨by decide, fun h => ?_⟩
  have hrefused : (checkPlugin doubleRule none ⟨request, none, ()⟩).1 = false := by decide
  have hread : ∀ key ∈ [bytes "apikey", originalAuthKey, bytes "token"],
      (request.get key = bytes "a" ∨ request.get key = []) ∧ queryValue request key = [] := by
    decide
  have honly : OnlyFrom request doubleRule alice := by
    refine ⟨?_, bytes "a", by decide, bytes "apikey", by decide, .inl (by decide)⟩
    rintro e' he' v ⟨hne, key, hkey, hplace⟩
    have hkey' : key ∈ [bytes "apikey", originalAuthKey, bytes "token"] := by
      have hplaces : ∀ e' ∈ doubleRule.consumers, ∀ key ∈ e'.keys.getD doubleRule.keys,
          key ∈ [bytes "apikey", originalAuthKey, bytes "token"] := by decide
      exact hplaces e' he' key hkey
    obtain ⟨hheader, hquery⟩ := hread key hkey'
    rcases hplace with ⟨-, rfl⟩ | ⟨-, rfl⟩
    · rw [hheader.resolve_right hne]
      decide
    · exact absurd hquery hne
  have haccepted := (h.complete alice (by decide) honly (fun _ h => by cases h)).1
  rw [hrefused] at haccepted
  cases haccepted

end Higress.WasmCpp.KeyAuth
