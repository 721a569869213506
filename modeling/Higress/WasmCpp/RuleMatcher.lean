import Higress.WasmCpp.Common

/-!
The rules of the authentication plugins (`common/route_rule_matcher.h`): how they are
read from the configuration, which of them applies to a request, and when the check of the
plugin is called for it.

The plugin is a parameter. It reads its own configuration from the fields it knows; a rule
in which it finds one has a configuration of its own, all other rules only name the
consumers that are allowed.
-/

namespace Higress.WasmCpp

open Lib

inductive Category
  | route
  | routePrefix
  | host
  | service
  | routeAndService

inductive MatchType
  | start
  | exact
  | ending

/-- `RuleConfig`, without the configuration of the plugin. -/
structure RuleConfig where
  category : Category
  routes : List GoString
  routePrefixs : List GoString
  hosts : List (MatchType × GoString)
  services : List GoString
  disable : Bool

/-- A set of names, as the list of what was put in. -/
abbrev AllowSet := List GoString

/-- `AuthRuleConfig`; `has_local_config` says that there is a configuration. -/
structure AuthRuleConfig (P : Type) where
  ruleConfig : RuleConfig
  allowSet : AllowSet
  config : Option P

/-- What the matcher has read; it is used only if the configuration was accepted. -/
structure Matcher (P : Type) where
  globalAuth : Option Bool
  authRuleConfig : List (AuthRuleConfig P)
  globalConfig : Option P

/-! ### Reading the rules -/

section Parse

/-- `parseRouteMatchConfig` and its like: a list of strings. -/
def parseStrings (config : Json) (field : GoString) : Option (List GoString) :=
  arrayIterate config field valueAsString

def parseHost (host : GoString) : MatchType × GoString :=
  if Strings.startsWith host (bytes "*") then (.ending, host.drop 1)
  else if (bytes "*").isSuffixOf host then (.start, host.dropLast)
  else (.exact, host)

def parseDomainMatchConfig (config : Json) : Option (List (MatchType × GoString)) :=
  arrayIterate config (bytes "_match_domain_") fun host => (valueAsString host).map parseHost

/-- The kind of a rule, if there is something to match at all. -/
def parseCategory (routes routePrefixs services : List GoString)
    (hosts : List (MatchType × GoString)) : Option Category :=
  if routes.isEmpty && routePrefixs.isEmpty && services.isEmpty && hosts.isEmpty then none
  else if !routes.isEmpty then some (if !services.isEmpty then .routeAndService else .route)
  else if !routePrefixs.isEmpty then some .routePrefix
  else if !services.isEmpty then some .service
  else some .host

def parseDisable (config : Json) : Bool :=
  ((find config (bytes "_disable_")).bind valueAsBool).getD false

def parseMatch (config : Json) : Option RuleConfig := do
  let routes ← parseStrings config (bytes "_match_route_")
  let routePrefixs ← parseStrings config (bytes "_match_route_prefix_")
  let services ← parseStrings config (bytes "_match_service_")
  let hosts ← parseDomainMatchConfig config
  let category ← parseCategory routes routePrefixs services hosts
  some ⟨category, routes, routePrefixs, hosts, services, parseDisable config⟩

def hasAllow (config : Json) : Bool := (find config (bytes "allow")).isSome

/-- The number of fields besides one match field, `allow` and `_disable_`. The source
counts in `size_t`, where what is below zero is large. -/
def localConfigSize (config : Json) : ℤ :=
  size config - 1 - (if hasAllow config then 1 else 0) -
    (if (find config (bytes "_disable_")).isSome then 1 else 0)

variable {P : Type} (parsePluginConfig : Json → Option P)

/-- The configuration of its own that a rule has. -/
def ownConfig (config : Json) : Option P :=
  if localConfigSize config ≠ 0 then parsePluginConfig config else none

/-- One round of the loop of `parseAuthRuleConfig`. -/
def parseAuthRule (config : Json) : Option (AuthRuleConfig P) := do
  let allowSet ← parseStrings config (bytes "allow")
  let own := ownConfig parsePluginConfig config
  if localConfigSize config ≠ 0 && own.isNone && !hasAllow config then none
  else do
    let ruleConfig ← parseMatch config
    some ⟨ruleConfig, allowSet, own⟩

def parseGlobalAuth (config : Json) : Option (Option Bool) :=
  match find config (bytes "global_auth") with
  | none => some none
  | some value => (valueAsBool value).map some

/-- The configuration of the plugin outside the rules. -/
def parseGlobalConfig (config : Json) : Option P :=
  let keyCount := size config - (if (find config (bytes "_rules_")).isSome then 1 else 0)
  if 0 < keyCount then parsePluginConfig config else none

/-- The rules of a configuration as they are written. -/
def ruleItems (config : Json) : List Json :=
  match find config (bytes "_rules_") with
  | some (.arr items) => items
  | _ => []

def parseAuthRuleConfig (config : Json) : Option (Matcher P) := do
  let globalAuth ← parseGlobalAuth config
  let globalConfig := parseGlobalConfig parsePluginConfig config
  match find config (bytes "_rules_") with
  | none => if globalConfig.isSome then some ⟨globalAuth, [], globalConfig⟩ else none
  | some (.arr items) => do
      let rules ← items.mapM (parseAuthRule parsePluginConfig)
      some ⟨globalAuth, rules, globalConfig⟩
  | some _ => none

end Parse

/-! ### Matching a request -/

/-- What the rules look at: the host of a request, its route and its service. -/
structure RouteInfo where
  authority : GoString
  routeName : GoString
  clusterName : GoString

namespace RuleConfig

def hostMatch (rule : RuleConfig) (requestHost : GoString) : Bool :=
  if rule.hosts.isEmpty then true
  else
    let requestHost := stripPortFromHost requestHost
    rule.hosts.any fun h =>
      match h.1 with
      | .ending => h.2.isSuffixOf requestHost
      | .start => h.2.isPrefixOf requestHost
      | .exact => requestHost == h.2

def serviceMatch (rule : RuleConfig) (requestService : GoString) : Bool :=
  if rule.services.isEmpty then true
  else
    match requestService.splitOn 124 with
    | [_, port, _, fqdn] =>
        rule.services.any fun service => service == fqdn || service == fqdn ++ bytes ":" ++ port
    | _ => false

/-- The rule applies to the request. -/
def matchesRequest (rule : RuleConfig) (info : RouteInfo) : Bool :=
  match rule.category with
  | .host => rule.hostMatch info.authority
  | .route => rule.routes.contains info.routeName
  | .routeAndService => rule.routes.contains info.routeName && rule.serviceMatch info.clusterName
  | .service => rule.serviceMatch info.clusterName
  | .routePrefix => rule.routePrefixs.any fun p => p.isPrefixOf info.routeName

end RuleConfig

namespace Matcher

variable {P : Type} (m : Matcher P) (info : RouteInfo)

/-- The place of the first rule that matches. -/
def firstMatch : Option ℕ := m.authRuleConfig.findIdx? fun r => r.ruleConfig.matchesRequest info

/-- `getMatchAuthConfig`. -/
def getMatchAuthConfig : Option P × Option AllowSet :=
  if m.authRuleConfig.isEmpty then (m.globalConfig, none)
  else
    match m.authRuleConfig.find? fun r => r.ruleConfig.matchesRequest info with
    | none => if m.globalAuth = some true then (m.globalConfig, none) else (none, none)
    | some rule =>
        if rule.ruleConfig.disable then (none, none)
        else match rule.config with
          | some config => (some config, none)
          | none => (m.globalConfig, some rule.allowSet)

def globalAuthDisable : Bool := m.globalAuth = some false

/-- `checkAuthRule`, for a check that may change the state of the request. -/
def checkAuthRule {σ : Type} (checkPlugin : P → Option AllowSet → σ → Bool × σ) (s : σ) : Bool × σ :=
  match m.getMatchAuthConfig info with
  | (none, _) => (true, s)
  | (some config, allowSet) =>
      if allowSet.isNone && m.globalAuthDisable then (true, s)
      else checkPlugin config allowSet s

variable {m info}

/-- The check is called where there is a configuration and authentication is on. -/
theorem checkAuthRule_of_match {config : P} {allowSet : Option AllowSet}
    (hmatch : m.getMatchAuthConfig info = (some config, allowSet))
    (hon : ¬ (allowSet = none ∧ m.globalAuth = some false)) {σ : Type}
    (checkPlugin : P → Option AllowSet → σ → Bool × σ) (s : σ) :
    m.checkAuthRule info checkPlugin s = checkPlugin config allowSet s := by
  rw [checkAuthRule, hmatch]
  exact if_neg (by simpa [globalAuthDisable] using hon)

end Matcher

/-! ### When a rule is enforced -/

section Enforced

variable {P : Type}

/-- A check that keeps a record of its calls. -/
def recorded (check : P → Option AllowSet → Bool) (config : P) (allowSet : Option AllowSet)
    (calls : List (P × Option AllowSet)) : Bool × List (P × Option AllowSet) :=
  (check config allowSet, calls ++ [(config, allowSet)])

/-- Whatever the check of the plugin is, access is granted only after it has been called
and has agreed, and it has been called with the names that the rule allows if the rule
says so. -/
def Enforces (m : Matcher P) (info : RouteInfo) (item : Json) : Prop :=
  ∀ check : P → Option AllowSet → Bool,
    (m.checkAuthRule info (recorded check) []).1 = true →
      ∃ config allowSet, (m.checkAuthRule info (recorded check) []).2 = [(config, allowSet)] ∧
        check config allowSet = true ∧
        (hasAllow item = true → allowSet = parseStrings item (bytes "allow"))

variable {parsePluginConfig : Json → Option P}

/-- What an accepted configuration says, in the words of its parts. -/
theorem parseAuthRuleConfig_eq_some {config : Json} {m : Matcher P}
    (h : parseAuthRuleConfig parsePluginConfig config = some m) :
    parseGlobalAuth config = some m.globalAuth ∧
      parseGlobalConfig parsePluginConfig config = m.globalConfig ∧
      (ruleItems config).mapM (parseAuthRule parsePluginConfig) = some m.authRuleConfig := by
  rw [parseAuthRuleConfig, Option.bind_eq_bind, Option.bind_eq_some_iff] at h
  obtain ⟨globalAuth, hauth, h⟩ := h
  rw [ruleItems]
  cases hrules : find config (bytes "_rules_") with
  | none =>
      simp only [hrules, Option.ite_none_right_eq_some, Option.some.injEq] at h
      obtain ⟨-, rfl⟩ := h
      exact ⟨hauth, rfl, rfl⟩
  | some rules =>
      cases rules with
      | arr items =>
          simp only [hrules, Option.bind_eq_bind, Option.bind_eq_some_iff, Option.some.injEq] at h
          obtain ⟨rs, hrs, rfl⟩ := h
          exact ⟨hauth, rfl, hrs⟩
      | _ => simp [hrules] at h

theorem parseAuthRule_eq_some {item : Json} {rule : AuthRuleConfig P}
    (h : parseAuthRule parsePluginConfig item = some rule) :
    rule.config = ownConfig parsePluginConfig item ∧
      parseStrings item (bytes "allow") = some rule.allowSet ∧
      rule.ruleConfig.disable = parseDisable item := by
  rw [parseAuthRule, Option.bind_eq_bind, Option.bind_eq_some_iff] at h
  obtain ⟨allowSet, hallow, h⟩ := h
  dsimp only at h
  split at h
  · simp at h
  · simp only [Option.bind_eq_bind, Option.bind_eq_some_iff, Option.some.injEq] at h
    obtain ⟨ruleConfig, hmatch, rfl⟩ := h
    simp only [parseMatch, Option.bind_eq_bind, Option.bind_eq_some_iff, Option.some.injEq] at hmatch
    obtain ⟨_, -, _, -, _, -, _, -, _, -, rfl⟩ := hmatch
    exact ⟨rfl, hallow, rfl⟩

/-- The configuration and the names with which a request is checked that a rule matches. -/
theorem Matcher.getMatchAuthConfig_of_match {m : Matcher P} {info : RouteInfo} {i : ℕ}
    (hi : m.firstMatch info = some i) {rule : AuthRuleConfig P}
    (hrule : m.authRuleConfig[i]? = some rule) (hon : rule.ruleConfig.disable = false) :
    m.getMatchAuthConfig info =
      (match rule.config with
        | some config => (some config, none)
        | none => (m.globalConfig, some rule.allowSet)) := by
  have hfind : m.authRuleConfig.find? (fun r => r.ruleConfig.matchesRequest info) = some rule := by
    rw [firstMatch, List.findIdx?_eq_some_iff_getElem] at hi
    obtain ⟨hlt, hp, hbefore⟩ := hi
    rw [List.getElem?_eq_getElem hlt, Option.some.injEq] at hrule
    rw [List.find?_eq_some_iff_getElem]
    refine ⟨hrule ▸ hp, i, hlt, hrule, fun j hj => ?_⟩
    simpa using hbefore j hj
  have hne : m.authRuleConfig ≠ [] := by
    intro hnil
    simp [hnil] at hrule
  rw [getMatchAuthConfig, if_neg (by simpa using hne), hfind]
  simp [hon]

/-- With a configuration of its own the check is called without names, unless
authentication is switched off globally. -/
theorem enforces_own {m : Matcher P} {info : RouteInfo} {item : Json} {own : P}
    (hmatch : m.getMatchAuthConfig info = (some own, none)) {names : AllowSet}
    (hallow : parseStrings item (bytes "allow") = some names) :
    Enforces m info item ↔ hasAllow item = false ∧ m.globalAuth ≠ some false := by
  by_cases hoff : m.globalAuth = some false
  · have hpass (check : P → Option AllowSet → Bool) :
        m.checkAuthRule info (recorded check) [] = (true, []) := by
      simp [Matcher.checkAuthRule, hmatch, Matcher.globalAuthDisable, hoff]
    refine ⟨fun h => ?_, fun h => absurd hoff h.2⟩
    obtain ⟨_, _, hcalls, -⟩ := h (fun _ _ => true) (by rw [hpass])
    rw [hpass] at hcalls
    simp at hcalls
  · have hcall (check : P → Option AllowSet → Bool) :
        m.checkAuthRule info (recorded check) [] = (check own none, [(own, none)]) := by
      simp [Matcher.checkAuthRule, hmatch, Matcher.globalAuthDisable, hoff, recorded]
    constructor
    · intro h
      obtain ⟨_, names', hcalls, -, hnames⟩ := h (fun _ _ => true) (by rw [hcall])
      rw [hcall] at hcalls
      obtain ⟨-, rfl⟩ : _ ∧ none = names' := by simpa using hcalls
      refine ⟨?_, hoff⟩
      by_contra hhas
      have := hnames (by simpa using hhas)
      rw [hallow] at this
      cases this
    · rintro ⟨hhas, -⟩ check htrue
      rw [hcall] at htrue ⊢
      exact ⟨own, none, rfl, htrue, fun h => by rw [hhas] at h; cases h⟩

/-- Without one the check is called with the names of the rule, if there is a global
configuration to call it with. -/
theorem enforces_global {m : Matcher P} {info : RouteInfo} {item : Json} {names : AllowSet}
    (hmatch : m.getMatchAuthConfig info = (m.globalConfig, some names))
    (hallow : parseStrings item (bytes "allow") = some names) :
    Enforces m info item ↔ m.globalConfig.isSome = true := by
  cases hglobal : m.globalConfig with
  | none =>
      have hpass (check : P → Option AllowSet → Bool) :
          m.checkAuthRule info (recorded check) [] = (true, []) := by
        simp [Matcher.checkAuthRule, hmatch, hglobal]
      refine ⟨fun h => ?_, fun h => by cases h⟩
      obtain ⟨_, _, hcalls, -⟩ := h (fun _ _ => true) (by rw [hpass])
      rw [hpass] at hcalls
      simp at hcalls
  | some config =>
      have hcall (check : P → Option AllowSet → Bool) :
          m.checkAuthRule info (recorded check) [] =
            (check config (some names), [(config, some names)]) := by
        simp [Matcher.checkAuthRule, hmatch, hglobal, recorded]
      refine ⟨fun _ => rfl, fun _ check htrue => ?_⟩
      rw [hcall] at htrue ⊢
      exact ⟨config, some names, rfl, htrue, fun _ => hallow.symm⟩

/-- A rule that is the first to match a request is enforced exactly when it has a
configuration of its own and names no consumers, and authentication is not switched off
globally; or it has none of its own, and there is a global one. -/
theorem enforces_iff {config : Json} {m : Matcher P}
    (hm : parseAuthRuleConfig parsePluginConfig config = some m) {info : RouteInfo} {i : ℕ}
    (hi : m.firstMatch info = some i) {item : Json} (hitem : (ruleItems config)[i]? = some item)
    (hon : parseDisable item = false) :
    Enforces m info item ↔
      if (ownConfig parsePluginConfig item).isSome then
        hasAllow item = false ∧ parseGlobalAuth config ≠ some (some false)
      else (parseGlobalConfig parsePluginConfig config).isSome = true := by
  obtain ⟨hauth, hglobal, hrules⟩ := parseAuthRuleConfig_eq_some hm
  have hplace := getElem?_of_mapM hrules i
  rw [hitem, Option.bind_some] at hplace
  have hlt := (List.findIdx?_eq_some_iff_getElem.mp hi).1
  obtain ⟨rule, hrule⟩ : ∃ rule, m.authRuleConfig[i]? = some rule := ⟨_, List.getElem?_eq_getElem hlt⟩
  obtain ⟨hconfig, hallow, hdisable⟩ := parseAuthRule_eq_some (hplace.symm.trans hrule)
  have hmatch := m.getMatchAuthConfig_of_match hi hrule (hdisable.trans hon)
  rw [hauth, hglobal, ← hconfig]
  cases hown : rule.config with
  | some own =>
      rw [hown] at hmatch
      simpa using enforces_own hmatch hallow
  | none =>
      rw [hown] at hmatch
      simpa using enforces_global hmatch hallow

end Enforced

/-! ### Configurations with one rule -/

namespace RuleSample

/-- A plugin that has a configuration where there are consumers. -/
def parse (config : Json) : Option Unit := (find config (bytes "consumers")).map fun _ => ()

def consumers : GoString × Json := (bytes "consumers", .arr [])

def route : GoString × Json := (bytes "_match_route_", .arr [.str (bytes "admin")])

def allow : GoString × Json := (bytes "allow", .arr [.str (bytes "alice")])

def info : RouteInfo := ⟨bytes "example.com", bytes "admin", []⟩

def rules (item : Json) : GoString × Json := (bytes "_rules_", .arr [item])

/-- Global consumers, and a rule that names one of them. -/
def shared : Json := .obj [consumers, rules (.obj [route, allow])]

/-- A rule with consumers of its own, where authentication is not global. -/
def switchedOff : Json := .obj [(bytes "global_auth", .bool false), rules (.obj [route, consumers])]

/-- A rule that has consumers of its own and names one of them. -/
def both : Json := .obj [rules (.obj [route, allow, consumers])]

/-- A rule that names a consumer where there are none. -/
def without : Json := .obj [rules (.obj [route, allow])]

/-- The calls that are made for a configuration when every check agrees. -/
def calls (config : Json) : Option (Option ℕ × Bool × List (Unit × Option AllowSet)) :=
  (parseAuthRuleConfig parse config).map fun m =>
    (m.firstMatch info, m.checkAuthRule info (recorded fun _ _ => true) [])

/-- The configuration is accepted and its only rule matches, but is not enforced. -/
def Unenforced (config item : Json) : Prop :=
  ∃ m, parseAuthRuleConfig parse config = some m ∧ m.firstMatch info = some 0 ∧
    (ruleItems config)[0]? = some item ∧ parseDisable item = false ∧ ¬ Enforces m info item

theorem exists_matcher {config : Json} {c : List (Unit × Option AllowSet)}
    (h : calls config = some (some 0, true, c)) :
    ∃ m, parseAuthRuleConfig parse config = some m ∧ m.firstMatch info = some 0 ∧
      m.checkAuthRule info (recorded fun _ _ => true) [] = (true, c) := by
  obtain ⟨m, hm, hcalls⟩ := Option.map_eq_some_iff.mp h
  exact ⟨m, hm, congrArg Prod.fst hcalls, congrArg Prod.snd hcalls⟩

theorem unenforced_of_no_call {config item : Json} (h : calls config = some (some 0, true, []))
    (hitem : (ruleItems config)[0]? = some item) (hon : parseDisable item = false) :
    Unenforced config item := by
  obtain ⟨m, hm, hi, hcalls⟩ := exists_matcher h
  refine ⟨m, hm, hi, hitem, hon, fun henf => ?_⟩
  obtain ⟨_, _, hone, -⟩ := henf (fun _ _ => true) (by rw [hcalls])
  rw [hcalls] at hone
  cases hone

theorem unenforced_of_no_names {config item : Json}
    (h : calls config = some (some 0, true, [((), none)]))
    (hitem : (ruleItems config)[0]? = some item) (hon : parseDisable item = false)
    (hnames : hasAllow item = true ∧ (parseStrings item (bytes "allow")).isSome = true) :
    Unenforced config item := by
  obtain ⟨m, hm, hi, hcalls⟩ := exists_matcher h
  refine ⟨m, hm, hi, hitem, hon, fun henf => ?_⟩
  obtain ⟨_, names, hone, -, hsame⟩ := henf (fun _ _ => true) (by rw [hcalls])
  rw [hcalls] at hone
  obtain rfl : none = names := by simpa using hone
  simpa [← hsame hnames.1] using hnames.2

end RuleSample

open RuleSample in
theorem enforces_shared : ∃ m, parseAuthRuleConfig parse shared = some m ∧
    m.firstMatch info = some 0 ∧ Enforces m info (.obj [route, allow]) := by
  obtain ⟨m, hm⟩ : ∃ m, parseAuthRuleConfig parse shared = some m :=
    Option.isSome_iff_exists.mp (by decide)
  have hfirst : (parseAuthRuleConfig parse shared).map (·.firstMatch info) = some (some 0) := by
    decide
  have hi : m.firstMatch info = some 0 := by simpa [hm] using hfirst
  have hitem : (ruleItems shared)[0]? = some (.obj [route, allow]) := rfl
  refine ⟨m, hm, hi, (enforces_iff hm hi hitem (by decide)).mpr ?_⟩
  decide

open RuleSample in
/-- A rule with consumers of its own is not enforced where authentication is not global,
and a rule that names a consumer is not enforced where there is no global configuration.
Where a rule has both, its names are not passed to the check. -/
theorem rules_not_enforced :
    Unenforced switchedOff (.obj [route, consumers]) ∧ Unenforced without (.obj [route, allow]) ∧
      Unenforced both (.obj [route, allow, consumers]) := by
  refine ⟨unenforced_of_no_call rfl rfl (by decide),
    unenforced_of_no_call rfl rfl (by decide),
    unenforced_of_no_names rfl rfl (by decide) (by decide)⟩

end Higress.WasmCpp
