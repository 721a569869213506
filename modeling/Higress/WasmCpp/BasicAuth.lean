import Higress.Lib.Base64
import Higress.Lib.ByteSplit
import Higress.Lib.GoMap
import Higress.Lib.HttpFilter
import Higress.WasmCpp.RuleMatcher

/-!
The basic authentication plugin (`extensions/basic_auth/plugin.cc`). Passwords are configured as they
are or as their hashes. In plain form a credential is kept and looked up as one encoded text; with
hashes, the user's name and the rest are split apart, both of the configured text and of the request's.

`crypt` is a parameter.
-/

namespace Higress.WasmCpp.BasicAuth

open Lib HttpFilter

/-! ### Base64 (`common/base64.h`) -/

/-- The bytes of six-bit digits, of which the last one must not have bits left over. -/
def decodeDigits : GoString → Option GoString
  | [p, q] =>
      (Base64.digitValue p).bind fun x => (Base64.digitValue q).bind fun y =>
        if y % 16 = 0 then some [UInt8.ofNat (x * 4 + y / 16)] else none
  | [p, q, r] =>
      (Base64.digitValue p).bind fun x => (Base64.digitValue q).bind fun y =>
        (Base64.digitValue r).bind fun z =>
          if z % 4 = 0 then
            some [UInt8.ofNat (x * 4 + y / 16), UInt8.ofNat (y % 16 * 16 + z / 4)]
          else none
  | p :: q :: r :: s :: rest =>
      (Base64.digitValue p).bind fun x => (Base64.digitValue q).bind fun y =>
        (Base64.digitValue r).bind fun z => (Base64.digitValue s).bind fun w =>
          (if rest = [] then some [] else decodeDigits rest).map fun bs =>
            UInt8.ofNat (x * 4 + y / 16) :: UInt8.ofNat (y % 16 * 16 + z / 4) ::
              UInt8.ofNat (z % 4 * 64 + w) :: bs
  | _ => none

/-- At most two characters of padding are passed over. -/
def stripPadding (input : GoString) : GoString :=
  if input.getLast? = some Base64.pad then
    if input.dropLast.getLast? = some Base64.pad then input.dropLast.dropLast else input.dropLast
  else input

/-- `Base64::decodeWithoutPadding`; what cannot be decoded is empty. -/
def decodeWithoutPadding (input : GoString) : GoString := (decodeDigits (stripPadding input)).getD []

/-! ### The configuration -/

structure BasicAuthConfigRule where
  encryptedCredentials : List (GoString × GoString) := []
  encodedCredentials : List GoString := []
  credentialToName : List (GoString × GoString) := []
  realm : GoString := bytes "MSE Gateway"
  passwdEncrypted : Bool := false

/-- `absl::StrSplit` at colons with at most `n` splits. -/
def strSplit : ℕ → GoString → List GoString
  | 0, s => [s]
  | n + 1, s =>
      match cutByte 58 s with
      | (s, none) => [s]
      | (first, some rest) => first :: strSplit n rest

/-- `insert` of a set. -/
def insertCredential (credentials : List GoString) (credential : GoString) : List GoString :=
  if credential ∈ credentials then credentials else credentials ++ [credential]

/-- `emplace` of a map, which keeps the value that is there. -/
def emplace (m : List (GoString × GoString)) (kv : GoString × GoString) : List (GoString × GoString) :=
  if (m.lookup kv.1).isSome then m else m ++ [kv]

/-- The credential is stored as one text, or as a user and a hash. -/
def storeCredential (rule : BasicAuthConfigRule) (stored : GoString) : Option BasicAuthConfigRule :=
  if !rule.passwdEncrypted then
    some { rule with encodedCredentials := insertCredential rule.encodedCredentials stored }
  else
    match strSplit 2 stored with
    | [user, hash] =>
        some { rule with encryptedCredentials := emplace rule.encryptedCredentials (user, hash) }
    | _ => none

/-- The consumer of a credential, of which there may be one. -/
def nameCredential (rule : BasicAuthConfigRule) (stored : GoString) :
    Option GoString → Option BasicAuthConfigRule
  | none => some rule
  | some name =>
      if (rule.credentialToName.lookup stored).isSome then none
      else some { rule with credentialToName := emplace rule.credentialToName (stored, name) }

def addBasicAuthConfigRule (rule : BasicAuthConfigRule) (credential : GoString) (name : Option GoString)
    (base64Encoded : Bool) : Option BasicAuthConfigRule :=
  let stored :=
    if !base64Encoded && !rule.passwdEncrypted then Base64.encodeToString credential else credential
  (storeCredential rule stored).bind fun rule => nameCredential rule stored name

/-- A credential with a colon is not encoded yet. -/
def addCredential (rule : BasicAuthConfigRule) (credential : GoString) (name : Option GoString) :
    Option BasicAuthConfigRule :=
  if 58 ∈ credential then addBasicAuthConfigRule rule credential name false
  else if rule.passwdEncrypted then none
  else if decodeWithoutPadding credential ≠ [] then addBasicAuthConfigRule rule credential name true
  else none

/-- An item of `credentials`. -/
def visitCredential (rule : BasicAuthConfigRule) (credentials : Json) : Option BasicAuthConfigRule := do
  addCredential rule (← valueAsString credentials) none

/-- An item of `consumers`. -/
def visitConsumer (rule : BasicAuthConfigRule) (consumer : Json) : Option BasicAuthConfigRule := do
  let name ← valueAsString (← find consumer (bytes "name"))
  let credential ← valueAsString (← find consumer (bytes "credential"))
  addCredential rule credential (some name)

/-- `JsonArrayIterate` with a visitor that changes the rule. -/
def iterate (configuration : Json) (field : GoString)
    (visitor : BasicAuthConfigRule → Json → Option BasicAuthConfigRule) (rule : BasicAuthConfigRule) :
    Option BasicAuthConfigRule :=
  match find configuration field with
  | none => some rule
  | some (.arr items) => items.foldlM visitor rule
  | some _ => none

def parsePluginConfig (configuration : Json) : Option BasicAuthConfigRule := do
  if (find configuration (bytes "consumers")).isSome && (find configuration (bytes "credentials")).isSome
  then none
  else
    let passwdEncrypted ← fieldOr configuration "encrypted" valueAsBool false
    let rule ← iterate configuration (bytes "credentials") visitCredential
      { passwdEncrypted := passwdEncrypted }
    let rule ← iterate configuration (bytes "consumers") visitConsumer rule
    if rule.encodedCredentials = [] ∧ rule.encryptedCredentials = [] then none
    else
      let realm ← fieldOr configuration "realm" valueAsString rule.realm
      some { rule with realm := realm }

/-! ### The check -/

section Check

variable {σ : Type} (crypt : GoString → GoString → Option GoString)

def denied (code : ℕ) (reason realm : GoString) (s : Stream σ) : Bool × Stream σ :=
  (false, s.sendLocalResponse ⟨code, bytes "Request denied by Basic Auth check. " ++ reason, [],
    [(bytes "WWW-Authenticate", bytes "Basic realm=" ++ realm)]⟩)

def deniedNoBasicAuthData (realm : GoString) : Stream σ → Bool × Stream σ :=
  denied 401 (bytes "No Basic Authentication information found.") realm

def deniedInvalidCredentials (realm : GoString) : Stream σ → Bool × Stream σ :=
  denied 401 (bytes "Invalid username and/or password") realm

def deniedUnauthorizedConsumer (realm : GoString) : Stream σ → Bool × Stream σ :=
  denied 403 (bytes "Unauthorized consumer") realm

def consumerHeader : GoString := bytes "X-Mse-Consumer"

def basic : GoString := bytes "Basic "

/-- The key under which the consumer of a credential is looked up; `none` when it is not valid. -/
def findCredential (rule : BasicAuthConfigRule) (authorization : GoString) : Option GoString :=
  if !rule.passwdEncrypted then
    if authorization ∈ rule.encodedCredentials then some authorization else none
  else
    let userAndPasswd := decodeWithoutPadding authorization
    if userAndPasswd = [] then none
    else
      match strSplit 2 userAndPasswd with
      | [user, passwd] => do
          let expectEncrypted ← rule.encryptedCredentials.lookup user
          let actualEncrypted ← crypt passwd expectEncrypted
          if expectEncrypted ≠ actualEncrypted then none
          else some (user ++ 58 :: expectEncrypted)
      | _ => none

/-- A valid credential: its consumer must be allowed. An empty set allows all of them. -/
def checkConsumer (rule : BasicAuthConfigRule) (allowSet : Option AllowSet) (toFindName : GoString)
    (s : Stream σ) : Bool × Stream σ :=
  match rule.credentialToName.lookup toFindName with
  | none => (true, s)
  | some name =>
      if (allowSet.getD []) ≠ [] ∧ name ∉ allowSet.getD [] then deniedUnauthorizedConsumer rule.realm s
      else (true, { s with headers := s.headers.add consumerHeader name })

def checkPlugin (rule : BasicAuthConfigRule) (allowSet : Option AllowSet) (s : Stream σ) :
    Bool × Stream σ :=
  let s := { s with headers := s.headers.remove consumerHeader }
  let authorization := s.headers.get (bytes "authorization")
  if !Strings.startsWith authorization basic then deniedNoBasicAuthData rule.realm s
  else
    match findCredential crypt rule (authorization.drop basic.length) with
    | none => deniedInvalidCredentials rule.realm s
    | some toFindName => checkConsumer rule allowSet toFindName s

end Check

/-! ### What is encoded can be decoded -/

/-- The digits of an encoded text and the padding behind them. -/
theorem encodeToString_digits (s : GoString) (hs : s ≠ []) :
    ∃ digits k, Base64.encodeToString s = digits ++ List.replicate k Base64.pad ∧ k ≤ 2 ∧
      Base64.pad ∉ digits ∧ digits ≠ [] ∧ decodeDigits digits = some s := by
  have hdigit {n : ℕ} (h : n < 64) : Base64.pad ≠ Base64.digit n := fun he => (Base64.digit_plain h).2.2 he.symm
  fun_induction Base64.encodeToString s with
  | case1 => exact absurd rfl hs
  | case2 a =>
      have ha := a.toNat_lt
      refine ⟨[Base64.digit (a.toNat / 4), Base64.digit (a.toNat % 4 * 16)], 2, rfl, le_rfl, ?_, by simp, ?_⟩
      · simp only [List.mem_cons, List.not_mem_nil, or_false, not_or]
        exact ⟨hdigit (by omega), hdigit (by omega)⟩
      · have hbyte : UInt8.ofNat (a.toNat / 4 * 4 + a.toNat % 4 * 16 / 16) = a := Base64.ofNat_eq (by omega)
        rw [decodeDigits, Base64.digitValue_digit (by omega), Base64.digitValue_digit (by omega)]
        simp only [Option.bind_some, hbyte]
        rw [if_pos (by omega)]
  | case3 a b =>
      have ha := a.toNat_lt
      have hb := b.toNat_lt
      refine ⟨[Base64.digit (a.toNat / 4), Base64.digit (a.toNat % 4 * 16 + b.toNat / 16),
        Base64.digit (b.toNat % 16 * 4)], 1, rfl, by omega, ?_, by simp, ?_⟩
      · simp only [List.mem_cons, List.not_mem_nil, or_false, not_or]
        exact ⟨hdigit (by omega), hdigit (by omega), hdigit (by omega)⟩
      · have hfirst : UInt8.ofNat (a.toNat / 4 * 4 + (a.toNat % 4 * 16 + b.toNat / 16) / 16) = a :=
          Base64.ofNat_eq (by omega)
        have hsecond : UInt8.ofNat ((a.toNat % 4 * 16 + b.toNat / 16) % 16 * 16 +
            b.toNat % 16 * 4 / 4) = b := Base64.ofNat_eq (by omega)
        rw [decodeDigits, Base64.digitValue_digit (by omega), Base64.digitValue_digit (by omega),
          Base64.digitValue_digit (by omega)]
        simp only [Option.bind_some, hfirst, hsecond]
        rw [if_pos (by omega)]
  | case4 a b c rest ih =>
      have ha := a.toNat_lt
      have hb := b.toNat_lt
      have hc := c.toNat_lt
      have hfirst : UInt8.ofNat (a.toNat / 4 * 4 + (a.toNat % 4 * 16 + b.toNat / 16) / 16) = a :=
        Base64.ofNat_eq (by omega)
      have hsecond : UInt8.ofNat ((a.toNat % 4 * 16 + b.toNat / 16) % 16 * 16 +
          (b.toNat % 16 * 4 + c.toNat / 64) / 4) = b := Base64.ofNat_eq (by omega)
      have hthird : UInt8.ofNat ((b.toNat % 16 * 4 + c.toNat / 64) % 4 * 64 + c.toNat % 64) = c :=
        Base64.ofNat_eq (by omega)
      have hdecode (digits : GoString) (bs : GoString)
          (h : (if digits = [] then some [] else decodeDigits digits) = some bs) :
          decodeDigits (Base64.digit (a.toNat / 4) :: Base64.digit (a.toNat % 4 * 16 + b.toNat / 16) ::
            Base64.digit (b.toNat % 16 * 4 + c.toNat / 64) :: Base64.digit (c.toNat % 64) :: digits) =
              some (a :: b :: c :: bs) := by
        rw [decodeDigits, Base64.digitValue_digit (by omega), Base64.digitValue_digit (by omega),
          Base64.digitValue_digit (by omega), Base64.digitValue_digit (by omega), h]
        simp only [Option.bind_some, Option.map_some, hfirst, hsecond, hthird]
      have hplain : ∀ digits : GoString, Base64.pad ∉ digits → Base64.pad ∉
          Base64.digit (a.toNat / 4) :: Base64.digit (a.toNat % 4 * 16 + b.toNat / 16) ::
            Base64.digit (b.toNat % 16 * 4 + c.toNat / 64) :: Base64.digit (c.toNat % 64) :: digits := by
        intro digits h
        simp only [List.mem_cons, not_or]
        exact ⟨hdigit (by omega), hdigit (by omega), hdigit (by omega), hdigit (by omega), h⟩
      by_cases hrest : rest = []
      · subst hrest
        exact ⟨_, 0, (List.append_nil _).symm, by omega, hplain [] (by simp), by simp, hdecode [] [] rfl⟩
      · obtain ⟨digits, k, htext, hk, hpad, hne, hdigits⟩ := ih hrest
        refine ⟨_, k, ?_, hk, hplain digits hpad, by simp, hdecode digits rest (by rw [if_neg hne, hdigits])⟩
        rw [htext]
        rfl

theorem stripPadding_append {digits : GoString} (hpad : Base64.pad ∉ digits) {k : ℕ} (hk : k ≤ 2) :
    stripPadding (digits ++ List.replicate k Base64.pad) = digits := by
  have hlast : digits.getLast? ≠ some Base64.pad := fun h => hpad (List.mem_of_getLast? h)
  rw [stripPadding]
  interval_cases k
  · simp [hlast]
  · simp [hlast]
  · have hdrop : (digits ++ List.replicate 2 Base64.pad).dropLast = digits ++ [Base64.pad] := by
      simp [List.replicate]
    rw [if_pos (by simp [List.replicate]), hdrop, if_pos (by simp)]
    simp

theorem decodeWithoutPadding_encode {s : GoString} (hs : s ≠ []) :
    decodeWithoutPadding (Base64.encodeToString s) = s := by
  obtain ⟨digits, k, htext, hk, hpad, -, hdigits⟩ := encodeToString_digits s hs
  rw [decodeWithoutPadding, htext, stripPadding_append hpad hk, hdigits]
  rfl

theorem encodeToString_injective : Function.Injective Base64.encodeToString := by
  intro s t h
  have hs := Base64.decodeQuanta_encodeToString false s
  rw [h, Base64.decodeQuanta_encodeToString] at hs
  exact (Option.some.inj hs).symm

theorem cutByte_append {user : GoString} (h : 58 ∉ user) (rest : GoString) :
    cutByte 58 (user ++ 58 :: rest) = (user, some rest) :=
  cutByte_append_afterByte h (some rest)

/-- A text with one colon is split in two, and one with more colons is not. -/
theorem strSplit_two {user : GoString} (h : 58 ∉ user) (rest : GoString) :
    strSplit 2 (user ++ 58 :: rest) = [user, rest] ∧ 58 ∉ rest ∨
      (strSplit 2 (user ++ 58 :: rest)).length = 3 ∧ 58 ∈ rest := by
  rw [strSplit, cutByte_append h]
  dsimp only
  rw [strSplit]
  by_cases hrest : 58 ∈ rest
  · obtain ⟨first, last, rfl, hfirst⟩ := List.eq_append_cons_of_mem hrest
    rw [cutByte_append hfirst]
    exact .inr ⟨rfl, hrest⟩
  · have hcut : cutByte 58 rest = (rest, none) := by
      simpa [afterByte] using cutByte_append_afterByte hrest none
    rw [hcut]
    exact .inl ⟨rfl, hrest⟩

/-! ### The two forms of a configuration -/

/-- A credential with the hash of its password and the name of its consumer. -/
structure Credential where
  user : GoString
  password : GoString
  hash : GoString
  name : GoString

/-- `hash` is the hash of `password`: `crypt` is right and without collisions, and a hash has no
colons. -/
structure IsHash (crypt : GoString → GoString → Option GoString) (password hash : GoString) : Prop where
  crypt_eq : crypt password hash = some hash
  eq_of_crypt : ∀ p, crypt p hash = some hash → p = password
  colon : 58 ∉ hash

namespace Credential

/-- The text of a credential in the configuration. -/
def text (encrypted : Bool) (c : Credential) : GoString :=
  c.user ++ 58 :: if encrypted then c.hash else c.password

/-- What the text is stored as. -/
def stored (encrypted : Bool) (c : Credential) : GoString :=
  if encrypted then c.text true else Base64.encodeToString (c.text false)

/-- A credential in a configuration with consumers or without them. -/
def item (encrypted named : Bool) (c : Credential) : Json :=
  if named then .obj [(bytes "name", .str c.name), (bytes "credential", .str (c.text encrypted))]
  else .str (c.text encrypted)

end Credential

/-- The configuration of credentials. -/
def config (encrypted named : Bool) (cs : List Credential) : Json :=
  .obj [(bytes "encrypted", .bool encrypted),
    (if named then bytes "consumers" else bytes "credentials", .arr (cs.map (·.item encrypted named)))]

/-- The rule of such a configuration. -/
def ruleOf (encrypted named : Bool) (cs : List Credential) : BasicAuthConfigRule where
  encryptedCredentials := if encrypted then cs.map fun c => (c.user, c.hash) else []
  encodedCredentials := if encrypted then [] else cs.map (·.stored false)
  credentialToName := if named then cs.map fun c => (c.stored encrypted, c.name) else []
  passwdEncrypted := encrypted

theorem user_eq_of_stored {encrypted : Bool} {c c' : Credential} (h : 58 ∉ c.user) (h' : 58 ∉ c'.user)
    (heq : c.stored encrypted = c'.stored encrypted) : c.user = c'.user := by
  have htext : c.text encrypted = c'.text encrypted := by
    cases encrypted with
    | false => exact encodeToString_injective heq
    | true => exact heq
  exact (append_cons_inj_of_notMem h h' htext).1

section Rule

variable {encrypted named : Bool} {cs : List Credential} {c : Credential}

theorem storeCredential_ruleOf (husers : ∀ d ∈ cs ++ [c], 58 ∉ d.user)
    (hnew : c.user ∉ cs.map (·.user)) (hhash : 58 ∉ c.hash) :
    storeCredential (ruleOf encrypted named cs) (c.stored encrypted) =
      some { ruleOf encrypted named (cs ++ [c]) with
        credentialToName := (ruleOf encrypted named cs).credentialToName } := by
  cases encrypted with
  | false =>
      have hstored : c.stored false ∉ cs.map (·.stored false) := by
        intro hmem
        obtain ⟨d, hd, heq⟩ := List.mem_map.mp hmem
        have huser := user_eq_of_stored (husers d (by simp [hd])) (husers c (by simp)) heq
        exact hnew (List.mem_map.mpr ⟨d, hd, huser⟩)
      have hinsert : insertCredential (cs.map (·.stored false)) (c.stored false) =
          (cs ++ [c]).map (·.stored false) := by
        rw [insertCredential, if_neg hstored, List.map_append]
        rfl
      change some _ = _
      rw [Option.some_inj]
      simp only [ruleOf, Bool.false_eq_true, if_false, hinsert]
  | true =>
      have hlookup : (cs.map fun c => (c.user, c.hash)).lookup c.user = none := by
        rw [GoMap.lookup_eq_none_iff]
        simpa using hnew
      have hemplace : emplace (cs.map fun c => (c.user, c.hash)) (c.user, c.hash) =
          (cs ++ [c]).map fun c => (c.user, c.hash) := by
        rw [emplace, hlookup, List.map_append]
        rfl
      have hsplit : strSplit 2 (c.stored true) = [c.user, c.hash] :=
        ((strSplit_two (husers c (by simp)) c.hash).resolve_right fun h => hhash h.2).1
      simp only [storeCredential, ruleOf, hsplit, Bool.not_true, Bool.false_eq_true, if_false, if_true,
        hemplace]

theorem nameCredential_ruleOf (husers : ∀ d ∈ cs ++ [c], 58 ∉ d.user)
    (hnew : c.user ∉ cs.map (·.user)) :
    nameCredential { ruleOf encrypted named (cs ++ [c]) with
        credentialToName := (ruleOf encrypted named cs).credentialToName } (c.stored encrypted)
        (if named then some c.name else none) =
      some (ruleOf encrypted named (cs ++ [c])) := by
  cases named with
  | false => rfl
  | true =>
      have hlookup : (cs.map fun c => (c.stored encrypted, c.name)).lookup (c.stored encrypted) = none := by
        rw [GoMap.lookup_eq_none_iff, List.map_map]
        intro hmem
        obtain ⟨d, hd, heq⟩ := List.mem_map.mp hmem
        have huser := user_eq_of_stored (husers d (by simp [hd])) (husers c (by simp)) heq
        exact hnew (List.mem_map.mpr ⟨d, hd, huser⟩)
      have hemplace : emplace (cs.map fun c => (c.stored encrypted, c.name)) (c.stored encrypted, c.name) =
          (cs ++ [c]).map fun c => (c.stored encrypted, c.name) := by
        rw [emplace, hlookup, List.map_append]
        rfl
      simp only [ruleOf, if_true, nameCredential, hlookup, Option.isSome_none, Bool.false_eq_true, if_false,
        hemplace]

theorem addCredential_ruleOf (husers : ∀ d ∈ cs ++ [c], 58 ∉ d.user) (hnew : c.user ∉ cs.map (·.user))
    (hhash : 58 ∉ c.hash) :
    addCredential (ruleOf encrypted named cs) (c.text encrypted) (if named then some c.name else none) =
      some (ruleOf encrypted named (cs ++ [c])) := by
  have hcolon : 58 ∈ c.text encrypted := by simp [Credential.text]
  have hstored : (if !false && !(ruleOf encrypted named cs).passwdEncrypted then
      Base64.encodeToString (c.text encrypted) else c.text encrypted) = c.stored encrypted := by
    cases encrypted <;> rfl
  rw [addCredential, if_pos hcolon, addBasicAuthConfigRule]
  simp only [hstored]
  rw [storeCredential_ruleOf husers hnew hhash, Option.bind_some, nameCredential_ruleOf husers hnew]

/-- The items of a configuration. -/
theorem foldlM_ruleOf (visitor : BasicAuthConfigRule → Json → Option BasicAuthConfigRule)
    (hvisitor : ∀ rule c, visitor rule (Credential.item encrypted named c) =
      addCredential rule (c.text encrypted) (if named then some c.name else none))
    {done rest : List Credential} (husers : ∀ d ∈ done ++ rest, 58 ∉ d.user)
    (hnodup : ((done ++ rest).map (·.user)).Nodup) (hhash : ∀ d ∈ done ++ rest, 58 ∉ d.hash) :
    (rest.map (·.item encrypted named)).foldlM visitor (ruleOf encrypted named done) =
      some (ruleOf encrypted named (done ++ rest)) := by
  induction rest generalizing done with
  | nil => simp
  | cons c rest ih =>
      have hsplit : done ++ c :: rest = done ++ [c] ++ rest := by simp
      have hnew : c.user ∉ done.map (·.user) := by
        rw [List.map_append, List.nodup_append] at hnodup
        exact fun hmem => hnodup.2.2 _ hmem _ (by simp) rfl
      have husers' : ∀ d ∈ done ++ [c], 58 ∉ d.user := fun d hd =>
        husers d (hsplit ▸ List.mem_append_left rest hd)
      rw [List.map_cons, List.foldlM_cons, hvisitor,
        addCredential_ruleOf husers' hnew (hhash c (by simp)), hsplit]
      exact ih (hsplit ▸ husers) (hsplit ▸ hnodup) (hsplit ▸ hhash)

/-- Both forms of a configuration are accepted, unless there are no credentials. -/
theorem parsePluginConfig_config (husers : ∀ c ∈ cs, 58 ∉ c.user) (hnodup : (cs.map (·.user)).Nodup)
    (hhash : ∀ c ∈ cs, 58 ∉ c.hash) :
    parsePluginConfig (config encrypted named cs) =
      if cs = [] then none else some (ruleOf encrypted named cs) := by
  have hencrypted : fieldOr (config encrypted named cs) "encrypted" valueAsBool false = some encrypted := rfl
  have hrealm : fieldOr (config encrypted named cs) "realm" valueAsString
      (ruleOf encrypted named cs).realm = some (ruleOf encrypted named cs).realm := by
    cases named <;> rfl
  have hempty : ((ruleOf encrypted named cs).encodedCredentials = [] ∧
      (ruleOf encrypted named cs).encryptedCredentials = []) ↔ cs = [] := by
    cases encrypted <;> simp [ruleOf]
  have hinit : ({ passwdEncrypted := encrypted } : BasicAuthConfigRule) = ruleOf encrypted named [] := by
    cases encrypted <;> cases named <;> rfl
  have hrules : (iterate (config encrypted named cs) (bytes "credentials") visitCredential
      { passwdEncrypted := encrypted }).bind
      (iterate (config encrypted named cs) (bytes "consumers") visitConsumer) =
        some (ruleOf encrypted named cs) := by
    have hfold (visitor : BasicAuthConfigRule → Json → Option BasicAuthConfigRule)
        (hvisitor : ∀ rule c, visitor rule (Credential.item encrypted named c) =
          addCredential rule (c.text encrypted) (if named then some c.name else none)) :
        (cs.map (·.item encrypted named)).foldlM visitor (ruleOf encrypted named []) =
          some (ruleOf encrypted named cs) := foldlM_ruleOf visitor hvisitor husers hnodup hhash
    rw [hinit]
    cases named with
    | false =>
        change ((cs.map (·.item encrypted false)).foldlM visitCredential (ruleOf encrypted false [])).bind
          some = _
        rw [hfold visitCredential fun _ _ => rfl]
        rfl
    | true => exact hfold visitConsumer fun _ _ => rfl
  have hboth : ((find (config encrypted named cs) (bytes "consumers")).isSome &&
      (find (config encrypted named cs) (bytes "credentials")).isSome) = false := by
    cases named <;> rfl
  obtain ⟨rule, hcredentials, hconsumers⟩ := Option.bind_eq_some_iff.mp hrules
  rw [parsePluginConfig, hboth]
  simp only [Bool.false_eq_true, if_false, hencrypted, Option.bind_eq_bind, Option.bind_some, hcredentials,
    hconsumers, hrealm, hempty]

end Rule

/-! ### The two forms give the same decision -/

section Modes

variable {σ : Type} {crypt : GoString → GoString → Option GoString} {encrypted named : Bool}
  {cs : List Credential}

/-- The credentials of users with different names. -/
structure Distinct (crypt : GoString → GoString → Option GoString) (cs : List Credential) : Prop where
  colon : ∀ c ∈ cs, 58 ∉ c.user
  nodup : (cs.map (·.user)).Nodup
  hash : ∀ c ∈ cs, IsHash crypt c.password c.hash

theorem Distinct.nodup_stored (h : Distinct crypt cs) : (cs.map (·.stored encrypted)).Nodup := by
  have hnodup := h.nodup
  rw [List.Nodup, List.pairwise_map] at hnodup ⊢
  refine hnodup.imp_of_mem fun hc hd hne heq => hne ?_
  exact user_eq_of_stored (h.colon _ hc) (h.colon _ hd) heq

/-- The consumer of a credential. -/
theorem Distinct.lookup_name (h : Distinct crypt cs) {c : Credential} (hc : c ∈ cs) :
    (ruleOf encrypted named cs).credentialToName.lookup (c.stored encrypted) =
      if named then some c.name else none := by
  cases named with
  | false => rfl
  | true =>
      simp only [ruleOf, if_true]
      rw [GoMap.lookup_eq_some_iff]
      · exact List.mem_map.mpr ⟨c, hc, rfl⟩
      · rw [List.map_map]
        exact h.nodup_stored

theorem text_inj {user password user' password' : GoString} (h : 58 ∉ user) (h' : 58 ∉ user')
    (heq : Base64.encodeToString (user ++ 58 :: password) =
      Base64.encodeToString (user' ++ 58 :: password')) : user = user' ∧ password = password' :=
  append_cons_inj_of_notMem h h' (encodeToString_injective heq)

theorem findCredential_plain (authorization : GoString) :
    findCredential crypt (ruleOf false named cs) authorization =
      if authorization ∈ cs.map (·.stored false) then some authorization else none := rfl

/-- With hashes, a password with a colon is not read. -/
theorem findCredential_encrypted {user : GoString} (huser : 58 ∉ user) (password : GoString) :
    findCredential crypt (ruleOf true named cs) (Base64.encodeToString (user ++ 58 :: password)) =
      if 58 ∈ password then none
      else ((cs.map fun c => (c.user, c.hash)).lookup user).bind fun expectEncrypted =>
        (crypt password expectEncrypted).bind fun actualEncrypted =>
          if expectEncrypted ≠ actualEncrypted then none else some (user ++ 58 :: expectEncrypted) := by
  have hdecode : decodeWithoutPadding (Base64.encodeToString (user ++ 58 :: password)) =
      user ++ 58 :: password := decodeWithoutPadding_encode (by simp)
  simp only [findCredential, ruleOf, Bool.not_true, Bool.false_eq_true, if_false, if_true, hdecode]
  rw [if_neg (by simp)]
  rcases strSplit_two huser password with ⟨hsplit, hcolon⟩ | ⟨hlen, hcolon⟩
  · rw [hsplit, if_neg hcolon]
    rfl
  · rw [if_pos hcolon]
    split
    · rename_i hpair
      rw [hpair] at hlen
      simp at hlen
    · rfl

/-- A request with a configured credential. -/
theorem findCredential_of_mem (h : Distinct crypt cs) {c : Credential} (hc : c ∈ cs) :
    findCredential crypt (ruleOf encrypted named cs)
        (Base64.encodeToString (c.user ++ 58 :: c.password)) =
      if encrypted = true ∧ 58 ∈ c.password then none else some (c.stored encrypted) := by
  cases encrypted with
  | false =>
      have hmem : Base64.encodeToString (c.user ++ 58 :: c.password) ∈ cs.map (·.stored false) :=
        List.mem_map.mpr ⟨c, hc, rfl⟩
      rw [findCredential_plain, if_pos hmem, if_neg (by simp)]
      rfl
  | true =>
      have hlookup : (cs.map fun c => (c.user, c.hash)).lookup c.user = some c.hash := by
        rw [GoMap.lookup_eq_some_iff (by rw [List.map_map]; exact h.nodup)]
        exact List.mem_map.mpr ⟨c, hc, rfl⟩
      rw [findCredential_encrypted (h.colon c hc), hlookup]
      simp only [Option.bind_some, (h.hash c hc).crypt_eq, ne_eq, not_true_eq_false, if_false, true_and]
      rfl

/-- A request with another credential. -/
theorem findCredential_of_notMem (h : Distinct crypt cs) {user password : GoString} (huser : 58 ∉ user)
    (hnot : ∀ c ∈ cs, ¬ (c.user = user ∧ c.password = password)) :
    findCredential crypt (ruleOf encrypted named cs) (Base64.encodeToString (user ++ 58 :: password)) =
      none := by
  cases encrypted with
  | false =>
      rw [findCredential_plain, if_neg]
      intro hmem
      obtain ⟨c, hc, heq⟩ := List.mem_map.mp hmem
      exact hnot c hc (text_inj (h.colon c hc) huser heq)
  | true =>
      rw [findCredential_encrypted huser]
      cases hlookup : (cs.map fun c => (c.user, c.hash)).lookup user with
      | none => simp
      | some hash =>
          rw [GoMap.lookup_eq_some_iff (by rw [List.map_map]; exact h.nodup)] at hlookup
          obtain ⟨c, hc, heq⟩ := List.mem_map.mp hlookup
          obtain ⟨rfl, rfl⟩ := Prod.mk.inj heq
          cases hcrypt : crypt password c.hash with
          | none => simp [hcrypt]
          | some actual =>
              have hne : c.hash ≠ actual := by
                rintro rfl
                exact hnot c hc ⟨rfl, ((h.hash c hc).eq_of_crypt password hcrypt).symm⟩
              simp [hcrypt, hne]

/-- The decision about a request and the header fields that it goes on with. -/
def decision (crypt : GoString → GoString → Option GoString) (encrypted named : Bool)
    (cs : List Credential) (allowSet : Option AllowSet) (s : Stream σ) : Option (Bool × Headers) :=
  (parsePluginConfig (config encrypted named cs)).map fun rule =>
    ((checkPlugin crypt rule allowSet s).1, (checkPlugin crypt rule allowSet s).2.headers)

/-- The request carries the credential. -/
def Carries (s : Stream σ) (user password : GoString) : Prop :=
  s.headers.get (bytes "authorization") = basic ++ Base64.encodeToString (user ++ 58 :: password)

/-- A consumer that is shut out. -/
def ShutOut (named : Bool) (allowSet : Option AllowSet) (c : Credential) : Prop :=
  named = true ∧ allowSet.getD [] ≠ [] ∧ c.name ∉ allowSet.getD []

instance decidableShutOut (named : Bool) (allowSet : Option AllowSet) (c : Credential) :
    Decidable (ShutOut named allowSet c) := inferInstanceAs (Decidable (_ ∧ _))

theorem checkPlugin_eq {rule : BasicAuthConfigRule} {allowSet : Option AllowSet} {s : Stream σ}
    {user password : GoString} (hs : Carries s user password) :
    checkPlugin crypt rule allowSet s =
      match findCredential crypt rule (Base64.encodeToString (user ++ 58 :: password)) with
      | none => deniedInvalidCredentials rule.realm { s with headers := s.headers.remove consumerHeader }
      | some toFindName =>
          checkConsumer rule allowSet toFindName { s with headers := s.headers.remove consumerHeader } := by
  have hget : (s.headers.remove consumerHeader).get (bytes "authorization") =
      basic ++ Base64.encodeToString (user ++ 58 :: password) := by
    rw [Headers.get_remove, if_neg (by decide)]
    exact hs
  simp only [checkPlugin, hget, Strings.startsWith]
  rw [if_neg (by simp [List.isPrefixOf_iff_prefix]), List.drop_left]

/-- The decision about a request with a configured credential. -/
theorem decision_of_mem (h : Distinct crypt cs) {c : Credential} (hc : c ∈ cs) {s : Stream σ}
    (hs : Carries s c.user c.password) (allowSet : Option AllowSet) :
    decision crypt encrypted named cs allowSet s =
      if (encrypted = true ∧ 58 ∈ c.password) ∨ ShutOut named allowSet c then
        some (false, s.headers.remove consumerHeader)
      else some (true, if named then (s.headers.remove consumerHeader).add consumerHeader c.name
        else s.headers.remove consumerHeader) := by
  have hne : cs ≠ [] := List.ne_nil_of_mem hc
  rw [decision, parsePluginConfig_config h.colon h.nodup fun c hc => (h.hash c hc).colon, if_neg hne,
    Option.map_some, checkPlugin_eq hs, findCredential_of_mem h hc]
  by_cases hcolon : encrypted = true ∧ 58 ∈ c.password
  · rw [if_pos hcolon, if_pos (.inl hcolon)]
    rfl
  · rw [if_neg hcolon]
    simp only [checkConsumer, h.lookup_name hc, hcolon, false_or, ShutOut]
    cases named with
    | false => simp
    | true =>
        simp only [if_true, true_and]
        split_ifs <;> rfl

/-- The decision about a request with another credential. -/
theorem decision_of_notMem (h : Distinct crypt cs) (hne : cs ≠ []) {user password : GoString}
    (huser : 58 ∉ user) (hnot : ∀ c ∈ cs, ¬ (c.user = user ∧ c.password = password)) {s : Stream σ}
    (hs : Carries s user password) (allowSet : Option AllowSet) :
    decision crypt encrypted named cs allowSet s =
      some (false, s.headers.remove consumerHeader) := by
  rw [decision, parsePluginConfig_config h.colon h.nodup fun c hc => (h.hash c hc).colon, if_neg hne,
    Option.map_some, checkPlugin_eq hs, findCredential_of_notMem h huser hnot]
  rfl

/-- The two forms agree unless a password with a colon is configured, and admitted in plain form. -/
theorem decision_agrees_iff (h : Distinct crypt cs) {user password : GoString} (huser : 58 ∉ user)
    {s : Stream σ} (hs : Carries s user password) (allowSet : Option AllowSet) :
    decision crypt false named cs allowSet s = decision crypt true named cs allowSet s ↔
      (58 ∈ password → ∀ c ∈ cs, c.user = user → c.password = password → ShutOut named allowSet c) := by
  by_cases hmem : ∃ c ∈ cs, c.user = user ∧ c.password = password
  · obtain ⟨c, hc, rfl, rfl⟩ := hmem
    have hunique : ∀ d ∈ cs, d.user = c.user → d = c := fun d hd =>
      List.inj_on_of_nodup_map h.nodup hd hc
    rw [decision_of_mem h hc hs, decision_of_mem h hc hs]
    by_cases hshut : ShutOut named allowSet c
    · simp only [hshut, or_true, if_true, true_iff]
      rintro - d hd heq -
      rwa [hunique d hd heq]
    · by_cases hcolon : 58 ∈ c.password
      · simp only [hcolon, hshut, Bool.false_eq_true, false_and, or_self, if_false, true_and, or_false, if_true,
          forall_const]
        refine iff_of_false (by simp) fun hall => hshut (hall c hc rfl rfl)
      · simp [hcolon]
  · push Not at hmem
    have hnot : ∀ c ∈ cs, ¬ (c.user = user ∧ c.password = password) := fun c hc heq => hmem c hc heq.1 heq.2
    refine iff_of_true ?_ fun _ c hc huser' hpassword => absurd hpassword (hmem c hc huser')
    by_cases hne : cs = []
    · subst hne
      cases named <;> rfl
    · rw [decision_of_notMem h hne huser hnot hs, decision_of_notMem h hne huser hnot hs]

end Modes

namespace Sample

/-- Two values of `crypt_sha`. -/
def crypt (key _salt : GoString) : Option GoString :=
  if key = bytes "a:b" then some (bytes "\x7bSHA\x7d3OptnM09ILoVSfbZtd3mB0IViII=")
  else if key = bytes "secret" then some (bytes "\x7bSHA\x7d5en6G6MezRroT3XKqkdPOmY/BfQ=")
  else none

def alice : Credential :=
  ⟨bytes "alice", bytes "a:b", bytes "\x7bSHA\x7d3OptnM09ILoVSfbZtd3mB0IViII=", bytes "consumer1"⟩

def bob : Credential :=
  ⟨bytes "bob", bytes "secret", bytes "\x7bSHA\x7d5en6G6MezRroT3XKqkdPOmY/BfQ=", bytes "consumer2"⟩

def request (authorization : String) : Stream Unit :=
  ⟨[(bytes "authorization", bytes authorization)], none, ()⟩

theorem distinct : Distinct crypt [alice, bob] where
  colon := by decide
  nodup := by decide
  hash := by
    simp only [List.mem_cons, List.not_mem_nil, or_false, forall_eq_or_imp, forall_eq]
    refine ⟨⟨by decide, fun p hp => ?_, by decide⟩, ⟨by decide, fun p hp => ?_, by decide⟩⟩
    · rw [crypt] at hp
      split_ifs at hp with h h'
      · exact h
      · exact absurd hp (by decide)
    · rw [crypt] at hp
      split_ifs at hp with h h'
      · exact absurd hp (by decide)
      · exact h'

end Sample

/-- A password without a colon. -/
theorem decision_agrees :
    Carries (Sample.request "Basic Ym9iOnNlY3JldA==") (bytes "bob") (bytes "secret") ∧
      decision Sample.crypt false true [Sample.alice, Sample.bob] none
          (Sample.request "Basic Ym9iOnNlY3JldA==") =
        decision Sample.crypt true true [Sample.alice, Sample.bob] none
          (Sample.request "Basic Ym9iOnNlY3JldA==") :=
  have hcarries : Carries (Sample.request "Basic Ym9iOnNlY3JldA==") (bytes "bob") (bytes "secret") := by
    rw [Carries]
    decide
  ⟨hcarries, (decision_agrees_iff Sample.distinct (by decide) hcarries none).mpr (by decide)⟩

/-- The password `a:b` is admitted in plain form and denied with its hash. -/
theorem decision_disagrees :
    Distinct Sample.crypt [Sample.alice, Sample.bob] ∧
      Carries (Sample.request "Basic YWxpY2U6YTpi") (bytes "alice") (bytes "a:b") ∧
      decision Sample.crypt false true [Sample.alice, Sample.bob] none
          (Sample.request "Basic YWxpY2U6YTpi") =
        some (true, [(bytes "authorization", bytes "Basic YWxpY2U6YTpi"),
          (bytes "x-mse-consumer", bytes "consumer1")]) ∧
      decision Sample.crypt true true [Sample.alice, Sample.bob] none
          (Sample.request "Basic YWxpY2U6YTpi") =
        some (false, [(bytes "authorization", bytes "Basic YWxpY2U6YTpi")]) := by
  refine ⟨Sample.distinct, ?_, ?_, ?_⟩
  · rw [Carries]
    decide
  · decide +kernel
  · decide +kernel

end Higress.WasmCpp.BasicAuth
