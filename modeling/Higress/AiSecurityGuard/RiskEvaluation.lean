import Higress.Lib.LetterCase

/-!
The configuration of the plugin `ai-security-guard`, the decision that it takes on an answer of
the moderation (`EvaluateRisk`), and the details that explain a block to the client
(`GetUnacceptableDetail`). Both walk through the answer on their own. For the actions of
`MultiModalGuard` they compare with the same bars; for the others the decision is taken by
`riskLevelBar`, which the explanation does not look at.
-/

namespace Higress.AiSecurityGuard

open Lib

/-! ### Levels -/

def levelOf (lowered : GoString) : ℤ :=
  if lowered = bytes "max" ∨ lowered = bytes "s4" then 4
  else if lowered = bytes "high" ∨ lowered = bytes "s3" then 3
  else if lowered = bytes "medium" ∨ lowered = bytes "s2" then 2
  else if lowered = bytes "low" ∨ lowered = bytes "s1" then 1
  else if lowered = bytes "none" ∨ lowered = bytes "s0" then 0
  else -1

def levelToInt (table : CaseTable) (riskLevel : GoString) : ℤ := levelOf (toLower table riskLevel)

theorem levelToInt_of_ascii (table : CaseTable) {s : GoString} (h : ∀ b ∈ s, b < 0x80) :
    levelToInt table s = levelOf (lower s) := by
  rw [levelToInt, toLower_eq_lower table h]

theorem levelToInt_max (table : CaseTable) : levelToInt table (bytes "max") = 4 :=
  levelToInt_of_ascii table (Strings.forall_mem_of_all (by decide))

theorem levelToInt_s4 (table : CaseTable) : levelToInt table (bytes "s4") = 4 :=
  levelToInt_of_ascii table (Strings.forall_mem_of_all (by decide))

theorem levelToInt_high (table : CaseTable) : levelToInt table (bytes "high") = 3 :=
  levelToInt_of_ascii table (Strings.forall_mem_of_all (by decide))

theorem levelToInt_nil (table : CaseTable) : levelToInt table [] = -1 :=
  levelToInt_of_ascii table (by simp)

/-! ### The configuration -/

/-- The types of details that have a bar and an action of their own. -/
inductive Dimension
  | contentModeration
  | promptAttack
  | sensitiveData
  | maliciousUrl
  | modelHallucination
  | customLabel
deriving DecidableEq

namespace Dimension

/-- In the order in which the configuration is read. -/
def all : List Dimension :=
  [contentModeration, promptAttack, sensitiveData, maliciousUrl, modelHallucination, customLabel]

def type : Dimension → GoString
  | contentModeration => bytes "contentModeration"
  | promptAttack => bytes "promptAttack"
  | sensitiveData => bytes "sensitiveData"
  | maliciousUrl => bytes "maliciousUrl"
  | modelHallucination => bytes "modelHallucination"
  | customLabel => bytes "customLabel"

/-- The dimension of a detail, none for the other types. -/
def ofType (detailType : GoString) : Option Dimension := all.find? (·.type = detailType)

def actionKey (d : Dimension) : GoString := d.type ++ bytes "Action"

def levelBarKey (d : Dimension) : GoString := d.type ++ bytes "LevelBar"

end Dimension

/-- A value in the rule of a consumer: a string, or a value of another type with its text by
`fmt.Sprint`. -/
inductive Interface
  | string (s : GoString)
  | other (sprint : GoString)
deriving DecidableEq

namespace Interface

def sprint : Interface → GoString
  | string s => s
  | other s => s

/-- `result, _ = v.(string)`. -/
def asString : Interface → GoString
  | string s => s
  | other _ => []

end Interface

structure Matcher where
  exact : GoString := []
  prefixText : GoString := []
  /-- a compiled regular expression, as the texts it matches -/
  re : Option (GoString → Bool) := none

def Matcher.matches (m : Matcher) (consumer : GoString) : Bool :=
  if m.exact ≠ [] then consumer = m.exact
  else if m.prefixText ≠ [] then Strings.startsWith consumer m.prefixText
  else match m.re with
    | some re => re consumer
    | none => false

/-- The map of a consumer's rule, with the matcher that is stored in it. -/
structure ConsumerRule where
  members : List (GoString × Interface)
  matcher : Option Matcher

inductive DenyResponseFormat
  | legacy
  | structured
deriving DecidableEq

structure AISecurityConfig where
  /-- the cluster of the client: name and port of the service -/
  client : GoString × ℤ := ([], 0)
  host : GoString := []
  ak : GoString := []
  sk : GoString := []
  token : GoString := []
  action : GoString := []
  checkRequest : Bool := false
  checkRequestImage : Bool := false
  requestCheckService : GoString := []
  requestImageCheckService : GoString := []
  requestContentJsonPath : GoString := []
  checkResponse : Bool := false
  responseCheckService : GoString := []
  responseImageCheckService : GoString := []
  responseContentJsonPath : GoString := []
  responseStreamContentJsonPath : GoString := []
  responseContentFallbackJsonPaths : List GoString := []
  responseStreamContentFallbackJsonPaths : List GoString := []
  responseErrorContentJsonPath : GoString := []
  denyCode : ℤ := 0
  denyMessage : GoString := []
  protocolOriginal : Bool := false
  openAIDenyResponseFormat : Option DenyResponseFormat := none
  riskLevelBar : GoString := []
  contentModerationLevelBar : GoString := []
  promptAttackLevelBar : GoString := []
  sensitiveDataLevelBar : GoString := []
  maliciousUrlLevelBar : GoString := []
  modelHallucinationLevelBar : GoString := []
  customLabelLevelBar : GoString := []
  timeout : UInt32 := 0
  bufferLimit : ℤ := 0
  consumerRequestCheckService : List ConsumerRule := []
  consumerResponseCheckService : List ConsumerRule := []
  consumerRiskLevel : List ConsumerRule := []
  apiType : GoString := []
  providerType : GoString := []
  riskAction : GoString := []
  contentModerationAction : GoString := []
  promptAttackAction : GoString := []
  sensitiveDataAction : GoString := []
  maliciousUrlAction : GoString := []
  modelHallucinationAction : GoString := []
  customLabelAction : GoString := []

def multiModalGuard : GoString := bytes "MultiModalGuard"
def multiModalGuardForBase64 : GoString := bytes "MultiModalGuardForBase64"
def textModerationPlus : GoString := bytes "TextModerationPlus"

/-- The bar of a dimension in the configuration itself. -/
def AISecurityConfig.bar (config : AISecurityConfig) : Dimension → GoString
  | .contentModeration => config.contentModerationLevelBar
  | .promptAttack => config.promptAttackLevelBar
  | .sensitiveData => config.sensitiveDataLevelBar
  | .maliciousUrl => config.maliciousUrlLevelBar
  | .modelHallucination => config.modelHallucinationLevelBar
  | .customLabel => config.customLabelLevelBar

def AISecurityConfig.setBar (config : AISecurityConfig) (bar : GoString) :
    Dimension → AISecurityConfig
  | .contentModeration => { config with contentModerationLevelBar := bar }
  | .promptAttack => { config with promptAttackLevelBar := bar }
  | .sensitiveData => { config with sensitiveDataLevelBar := bar }
  | .maliciousUrl => { config with maliciousUrlLevelBar := bar }
  | .modelHallucination => { config with modelHallucinationLevelBar := bar }
  | .customLabel => { config with customLabelLevelBar := bar }

def AISecurityConfig.setAction (config : AISecurityConfig) (action : GoString) :
    Dimension → AISecurityConfig
  | .contentModeration => { config with contentModerationAction := action }
  | .promptAttack => { config with promptAttackAction := action }
  | .sensitiveData => { config with sensitiveDataAction := action }
  | .maliciousUrl => { config with maliciousUrlAction := action }
  | .modelHallucination => { config with modelHallucinationAction := action }
  | .customLabel => { config with customLabelAction := action }

def AISecurityConfig.setDefaultValues (config : AISecurityConfig) : AISecurityConfig :=
  let config :=
    if config.action = textModerationPlus then
      { config with
        requestCheckService := bytes "llm_query_moderation"
        responseCheckService := bytes "llm_response_moderation" }
    else if config.action = multiModalGuard then
      { config with
        requestCheckService := bytes "query_security_check"
        requestImageCheckService := bytes "img_query_security_check"
        responseCheckService := bytes "response_security_check" }
    else config
  { config with
    riskLevelBar := bytes "high"
    denyCode := 200
    requestContentJsonPath := bytes "messages.@reverse.0.content"
    responseContentJsonPath := bytes "choices.0.message.content"
    responseStreamContentJsonPath := bytes "choices.0.delta.content"
    responseContentFallbackJsonPaths :=
      [bytes "choices.0.message.content", bytes "content.#(type==\"text\")#.text"]
    responseStreamContentFallbackJsonPaths :=
      [bytes "choices.0.delta.content", bytes "delta.text"]
    contentModerationLevelBar := bytes "max"
    promptAttackLevelBar := bytes "max"
    sensitiveDataLevelBar := bytes "s4"
    modelHallucinationLevelBar := bytes "max"
    maliciousUrlLevelBar := bytes "max"
    customLabelLevelBar := bytes "max"
    timeout := 2000
    bufferLimit := 1000
    apiType := bytes "text_generation"
    providerType := bytes "openai"
    riskAction := bytes "block"
    openAIDenyResponseFormat := some .legacy }

/-! ### Reading the configuration -/

/-- What is used of `gjson`, and of the regular expressions: none if one does not compile. -/
structure Reader (Value : Type) where
  get : Value → GoString → Value
  exists? : Value → Bool
  string : Value → GoString
  int : Value → ℤ
  bool : Value → Bool
  isArray : Value → Bool
  isString : Value → Bool
  array : Value → List Value
  /-- the members of an object with their values as Go values -/
  map : Value → List (GoString × Interface)
  compile : GoString → Option (GoString → Bool)

/-- How the reading of a configuration ends if it does not end well. -/
inductive Failure
  | error (message : GoString)
  | panic
deriving DecidableEq

def isAction (action : GoString) : Bool := action == bytes "block" || action == bytes "mask"

section Parse

variable {Value : Type} (lib : Reader Value) (table : CaseTable)

/-- `if obj := json.Get(name); obj.Exists()` with what is made of the value, else the value that
the field has. -/
def given {α : Type} (json : Value) (name : String) (f : Value → α) (current : α) : α :=
  let obj := lib.get json (bytes name)
  if lib.exists? obj then f obj else current

def parseDimensionAction (json : Value) (fieldName : GoString) : Except Failure GoString :=
  let obj := lib.get json fieldName
  if lib.exists? obj then
    let val := lib.string obj
    if isAction val then .ok val
    else .error (.error (bytes "invalid " ++ fieldName ++
      bytes ", value must be one of [block, mask]"))
  else .ok []

/-- The action of a dimension: it is checked for the actions that use it. -/
def readDimensionAction (isMultiModalGuard : Bool) (json : Value) (config : AISecurityConfig)
    (d : Dimension) : Except Failure AISecurityConfig :=
  if isMultiModalGuard then
    (parseDimensionAction lib json d.actionKey).map (config.setAction · d)
  else
    let obj := lib.get json d.actionKey
    .ok (if lib.exists? obj then config.setAction (lib.string obj) d else config)

/-- The values that the error for the bar of a dimension names. -/
def levelNames : Dimension → GoString
  | .sensitiveData => bytes "[S4, S3, S2, S1]"
  | _ => bytes "[max, high, medium, low]"

def parseLevelBar (json : Value) (config : AISecurityConfig) (d : Dimension) :
    Except Failure AISecurityConfig :=
  let obj := lib.get json d.levelBarKey
  if lib.exists? obj then
    let bar := lib.string obj
    if levelToInt table bar ≤ 0 then
      .error (.error (bytes "invalid " ++ d.levelBarKey ++ bytes ", value must be one of " ++
        levelNames d))
    else .ok (config.setBar bar d)
  else .ok config

/-- The order in which the bars are read. -/
def levelBarOrder : List Dimension :=
  [.contentModeration, .promptAttack, .sensitiveData, .modelHallucination, .maliciousUrl,
    .customLabel]

/-- The elements of an array of paths, which have to be strings with more than space. -/
def parsePaths (fieldName : GoString) : List Value → Except Failure (List GoString)
  | [] => .ok []
  | item :: items =>
      let path := Strings.trimSpace (lib.string item)
      if lib.isString item = true ∧ path ≠ [] then
        (parsePaths fieldName items).map (path :: ·)
      else .error (.error (bytes "invalid " ++ fieldName ++
        bytes ", value must be an array of non-empty strings"))

def parseOptionalStringArrayConfig (json : Value) (fieldName : GoString)
    (current : List GoString) : Except Failure (List GoString) :=
  let obj := lib.get json fieldName
  if lib.exists? obj then
    if lib.isArray obj then parsePaths lib fieldName (lib.array obj)
    else .error (.error (bytes "invalid " ++ fieldName ++
      bytes ", value must be an array of non-empty strings"))
  else .ok current

def parseDenyResponseFormat (json : Value) (current : Option DenyResponseFormat) :
    Except Failure (Option DenyResponseFormat) :=
  let obj := lib.get json (bytes "openAIDenyResponseFormat")
  if lib.exists? obj then
    if lib.string obj = bytes "legacy" then .ok (some .legacy)
    else if lib.string obj = bytes "structured" then .ok (some .structured)
    else .error (.error
      (bytes "invalid openAIDenyResponseFormat, value must be one of [legacy, structured]"))
  else .ok current

/-- The matcher by `name` and `matchType`; `regexp.MustCompile` panics. -/
def makeMatcher (consumerName matchType : Interface) : Except Failure (Option Matcher) :=
  if matchType.sprint = bytes "exact" then .ok (some { exact := consumerName.sprint })
  else if matchType.sprint = bytes "prefix" then .ok (some { prefixText := consumerName.sprint })
  else if matchType.sprint = bytes "regexp" then
    match lib.compile consumerName.sprint with
    | some re => .ok (some { re := some re })
    | none => .error .panic
  else .ok none

/-- A consumer's rule, none if it has no name or no match type. -/
def consumerRule (members : List (GoString × Interface)) : Except Failure (Option ConsumerRule) :=
  match members.lookup (bytes "name"), members.lookup (bytes "matchType") with
  | some consumerName, some matchType =>
      (makeMatcher lib consumerName matchType).map fun matcher => some ⟨members, matcher⟩
  | _, _ => .ok none

/-- A member that is there has to be an action. -/
def checkAction (members : List (GoString × Interface)) (fieldName : GoString) :
    Except Failure Unit :=
  match members.lookup fieldName with
  | some v =>
      if isAction v.sprint then .ok ()
      else .error (.error (bytes "invalid " ++ fieldName ++
        bytes " in consumerRiskLevel, value must be one of [block, mask]"))
  | none => .ok ()

def addCheckService (rules : List ConsumerRule) (item : Value) :
    Except Failure (List ConsumerRule) := do
  match ← consumerRule lib (lib.map item) with
  | some rule => return rules ++ [rule]
  | none => return rules

def addRiskLevel (isMultiModalGuard : Bool) (rules : List ConsumerRule) (item : Value) :
    Except Failure (List ConsumerRule) := do
  let m := lib.map item
  if (m.lookup (bytes "openAIDenyResponseFormat")).isSome then
    throw (.error (bytes "openAIDenyResponseFormat must be configured at plugin global scope, not under consumerRiskLevel"))
  match ← consumerRule lib m with
  | none => return rules
  | some rule =>
      checkAction m (bytes "riskAction")
      if isMultiModalGuard then
        Dimension.all.forM fun d => checkAction m d.actionKey
      return rules ++ [rule]

/-- The items of an array that is given. -/
def items (json : Value) (name : String) : List Value :=
  given lib json name lib.array []

/-- The service, the keys and the action, with the defaults. -/
def parseService (config : AISecurityConfig) (json : Value) : Except Failure AISecurityConfig := do
  let serviceName := lib.string (lib.get json (bytes "serviceName"))
  let servicePort := lib.int (lib.get json (bytes "servicePort"))
  let serviceHost := lib.string (lib.get json (bytes "serviceHost"))
  if serviceName = [] ∨ servicePort = 0 ∨ serviceHost = [] then
    throw (.error (bytes "invalid service config"))
  let ak := lib.string (lib.get json (bytes "accessKey"))
  let sk := lib.string (lib.get json (bytes "secretKey"))
  if ak = [] ∨ sk = [] then
    throw (.error (bytes "invalid AK/SK config"))
  let config := { config with
    client := (serviceName, servicePort)
    host := serviceHost
    ak := ak
    sk := sk
    token := lib.string (lib.get json (bytes "securityToken"))
    action := given lib json "action" lib.string textModerationPlus }
  return config.setDefaultValues

def AISecurityConfig.isMultiModalGuard (config : AISecurityConfig) : Bool :=
  config.action == multiModalGuard || config.action == multiModalGuardForBase64

/-- The actions for risks. -/
def parseActions (config : AISecurityConfig) (json : Value) :
    Except Failure AISecurityConfig := do
  let config := { config with riskAction := given lib json "riskAction" lib.string config.riskAction }
  if (lib.exists? (lib.get json (bytes "riskAction")) && !isAction config.riskAction) then
    throw (.error (bytes "invalid riskAction, value must be one of [block, mask]"))
  Dimension.all.foldlM (readDimensionAction lib config.isMultiModalGuard json) config

/-- The fields between the actions and the bars. -/
def parseFields (config : AISecurityConfig) (json : Value) : Except Failure AISecurityConfig := do
  let denyFormat ← parseDenyResponseFormat lib json config.openAIDenyResponseFormat
  let fallback ← parseOptionalStringArrayConfig lib json
    (bytes "responseContentFallbackJsonPaths") config.responseContentFallbackJsonPaths
  let streamFallback ← parseOptionalStringArrayConfig lib json
    (bytes "responseStreamContentFallbackJsonPaths") config.responseStreamContentFallbackJsonPaths
  let text := fun name current => given lib json name lib.string current
  return { config with
    riskLevelBar := text "riskLevelBar" config.riskLevelBar
    requestCheckService := text "requestCheckService" config.requestCheckService
    requestImageCheckService := text "requestImageCheckService" config.requestImageCheckService
    responseCheckService := text "responseCheckService" config.responseCheckService
    responseImageCheckService := text "responseImageCheckService" config.responseImageCheckService
    checkRequest := lib.bool (lib.get json (bytes "checkRequest"))
    checkRequestImage := lib.bool (lib.get json (bytes "checkRequestImage"))
    checkResponse := lib.bool (lib.get json (bytes "checkResponse"))
    protocolOriginal := lib.string (lib.get json (bytes "protocol")) == bytes "original"
    openAIDenyResponseFormat := denyFormat
    denyMessage := lib.string (lib.get json (bytes "denyMessage"))
    denyCode := given lib json "denyCode" lib.int config.denyCode
    requestContentJsonPath := text "requestContentJsonPath" config.requestContentJsonPath
    responseContentJsonPath := text "responseContentJsonPath" config.responseContentJsonPath
    responseStreamContentJsonPath :=
      text "responseStreamContentJsonPath" config.responseStreamContentJsonPath
    responseContentFallbackJsonPaths := fallback
    responseStreamContentFallbackJsonPaths := streamFallback
    responseErrorContentJsonPath :=
      text "responseErrorContentJsonPath" config.responseErrorContentJsonPath }

/-- The limits, the rules of the consumers and the kind of API. -/
def parseConsumers (config : AISecurityConfig) (json : Value) :
    Except Failure AISecurityConfig := do
  let request ← (items lib json "consumerRequestCheckService").foldlM (addCheckService lib)
    config.consumerRequestCheckService
  let response ← (items lib json "consumerResponseCheckService").foldlM (addCheckService lib)
    config.consumerResponseCheckService
  let riskLevel ← (items lib json "consumerRiskLevel").foldlM
    (addRiskLevel lib config.isMultiModalGuard) config.consumerRiskLevel
  return { config with
    timeout := given lib json "timeout" (fun obj => UInt32.ofInt (lib.int obj)) config.timeout
    bufferLimit := given lib json "bufferLimit" lib.int config.bufferLimit
    consumerRequestCheckService := request
    consumerResponseCheckService := response
    consumerRiskLevel := riskLevel
    apiType := given lib json "apiType" lib.string config.apiType
    providerType := given lib json "providerType" lib.string config.providerType }

def parse (config : AISecurityConfig) (json : Value) : Except Failure AISecurityConfig := do
  let config ← parseService lib config json
  let config ← parseActions lib config json
  let config ← parseFields lib config json
  let config ← levelBarOrder.foldlM (parseLevelBar lib table json) config
  parseConsumers lib config json

end Parse

/-! ### Rules of consumers -/

/-- An answer of the moderation, as far as it is evaluated. -/
structure Detail where
  suggestion : GoString
  type : GoString
  level : GoString
deriving DecidableEq

structure Data where
  riskLevel : GoString
  attackLevel : GoString
  detail : List Detail
deriving DecidableEq

namespace AISecurityConfig

variable (config : AISecurityConfig) (consumer : GoString)

/-- The first rule that matches. -/
def getMatchedConsumerRiskRule : Option ConsumerRule :=
  config.consumerRiskLevel.find? fun rule =>
    match rule.matcher with
    | some matcher => matcher.matches consumer
    | none => false

/-- The value of the consumer's rule for a field, else that of the configuration. A value in the
rule that is not a string counts as the empty one. -/
def overridden (field result : GoString) : GoString :=
  match config.getMatchedConsumerRiskRule consumer with
  | some rule =>
      match rule.members.lookup field with
      | some v => v.asString
      | none => result
  | none => result

def getRiskLevelBar : GoString :=
  config.overridden consumer (bytes "riskLevelBar") config.riskLevelBar

/-- `GetContentModerationLevelBar`, `GetPromptAttackLevelBar` and so on. -/
def getLevelBar (d : Dimension) : GoString :=
  config.overridden consumer d.levelBarKey (config.bar d)

def getGlobalDimensionAction (detailType : GoString) : GoString :=
  match Dimension.ofType detailType with
  | some .contentModeration => config.contentModerationAction
  | some .promptAttack => config.promptAttackAction
  | some .sensitiveData => config.sensitiveDataAction
  | some .maliciousUrl => config.maliciousUrlAction
  | some .modelHallucination => config.modelHallucinationAction
  | some .customLabel => config.customLabelAction
  | none => []

end AISecurityConfig

def dimensionActionKey (detailType : GoString) : GoString :=
  match Dimension.ofType detailType with
  | some d => d.actionKey
  | none => []

/-- Where the action for a detail comes from. -/
inductive ActionSource
  | consumerDimension
  | consumerGlobal
  | globalDimension
  | globalGlobal
  | default
deriving DecidableEq

/-- Only sensitive data can be masked. -/
def enforceMaskBoundary (action detailType : GoString) (source : ActionSource) :
    GoString × ActionSource :=
  if action = bytes "mask" ∧ detailType ≠ Dimension.sensitiveData.type then
    (bytes "block", source)
  else (action, source)

/-- A member of a rule that is a string with text. -/
def ConsumerRule.text (rule : ConsumerRule) (field : GoString) : Option GoString :=
  match rule.members.lookup field with
  | some (.string s) => if s = [] then none else some s
  | _ => none

def resolveRiskActionByType (config : AISecurityConfig) (consumer detailType : GoString) :
    GoString × ActionSource :=
  let dimKey := dimensionActionKey detailType
  let rule := config.getMatchedConsumerRiskRule consumer
  match rule.bind fun rule => if dimKey = [] then none else rule.text dimKey with
  | some s => enforceMaskBoundary s detailType .consumerDimension
  | none =>
      match rule.bind fun rule => rule.text (bytes "riskAction") with
      | some s => enforceMaskBoundary s detailType .consumerGlobal
      | none =>
          let globalDimAction := config.getGlobalDimensionAction detailType
          if globalDimAction ≠ [] then
            enforceMaskBoundary globalDimAction detailType .globalDimension
          else if config.riskAction ≠ [] then
            enforceMaskBoundary config.riskAction detailType .globalGlobal
          else (bytes "block", .default)

/-! ### The decision and its explanation -/

inductive RiskResult
  | pass
  | mask
  | block
deriving DecidableEq

section Evaluate

variable (table : CaseTable) (config : AISecurityConfig) (consumer : GoString)

def detailTriggersBlock (detail : Detail) (dimAction : GoString) (exceeds : Bool) : Bool :=
  if dimAction = bytes "block" then exceeds
  else if detail.suggestion = bytes "mask" then false
  else exceeds

def detailExceedsThreshold (detail : Detail) : Bool :=
  match Dimension.ofType detail.type with
  | some d => levelToInt table (config.getLevelBar consumer d) ≤ levelToInt table detail.level
  | none => false

/-- The details one after the other, up to one that triggers a block. -/
def evaluateDetails : Bool → List Detail → RiskResult
  | hasMask, [] => if hasMask then .mask else .pass
  | hasMask, detail :: details =>
      let dimAction := (resolveRiskActionByType config consumer detail.type).1
      let exceeds := detailExceedsThreshold table config consumer detail
      if detailTriggersBlock detail dimAction exceeds then .block
      else evaluateDetails (hasMask || (dimAction == bytes "mask" &&
        detail.suggestion == bytes "mask" && exceeds)) details

def evaluateRiskMultiModal (data : Data) : RiskResult :=
  if levelToInt table (config.getLevelBar consumer .contentModeration) ≤
      levelToInt table data.riskLevel then .block
  else if levelToInt table (config.getLevelBar consumer .promptAttack) ≤
      levelToInt table data.attackLevel then .block
  else evaluateDetails table config consumer false data.detail

def evaluateRisk (action : GoString) (data : Data) : RiskResult :=
  if action = multiModalGuard ∨ action = multiModalGuardForBase64 then
    evaluateRiskMultiModal table config consumer data
  else if levelToInt table data.riskLevel < levelToInt table (config.getRiskLevelBar consumer) then
    .pass
  else .block

/-- The details that trigger a block. -/
def triggering (detail : Detail) : Bool :=
  detailTriggersBlock detail (resolveRiskActionByType config consumer detail.type).1
    (detailExceedsThreshold table config consumer detail)

/-- The levels of the answer as details, where they reach their bars. -/
def synthesized (data : Data) : List Detail :=
  (if levelToInt table (config.getLevelBar consumer .contentModeration) ≤
      levelToInt table data.riskLevel then
    [⟨bytes "block", Dimension.contentModeration.type, data.riskLevel⟩] else []) ++
  (if levelToInt table (config.getLevelBar consumer .promptAttack) ≤
      levelToInt table data.attackLevel then
    [⟨bytes "block", Dimension.promptAttack.type, data.attackLevel⟩] else [])

def getUnacceptableDetail (data : Data) : List Detail :=
  let result := data.detail.filter (triggering table config consumer)
  if result = [] then synthesized table config consumer data else result

end Evaluate

/-! ### When a block is explained -/

section Explained

variable {table : CaseTable} {config : AISecurityConfig} {consumer : GoString}

theorem evaluateDetails_eq_block_iff (details : List Detail) (hasMask : Bool) :
    evaluateDetails table config consumer hasMask details = .block ↔
      ∃ detail ∈ details, triggering table config consumer detail = true := by
  induction details generalizing hasMask with
  | nil => cases hasMask <;> simp [evaluateDetails]
  | cons detail details ih =>
      rw [evaluateDetails, List.exists_mem_cons_iff]
      change (if triggering table config consumer detail = true then _ else _) = _ ↔ _
      split
      · rename_i htriggers
        simp [htriggers]
      · rename_i htriggers
        rw [ih]
        simp [htriggers]

/-- The level of the answer, the level of the attack or a detail reaches the bar that the
explanation compares it with; a detail that is to be masked does not count where masking is the
action for it. -/
structure Reaches (table : CaseTable) (config : AISecurityConfig) (consumer : GoString)
    (detail : Detail) (d : Dimension) : Prop where
  type : detail.type = d.type
  level : levelToInt table (config.getLevelBar consumer d) ≤ levelToInt table detail.level
  unmasked : (resolveRiskActionByType config consumer detail.type).1 = bytes "block" ∨
    detail.suggestion ≠ bytes "mask"

theorem Dimension.ofType_eq_some_iff {detailType : GoString} {d : Dimension} :
    Dimension.ofType detailType = some d ↔ detailType = d.type := by
  constructor
  · intro h
    have := List.find?_some h
    simpa using (of_decide_eq_true this).symm
  · rintro rfl
    cases d <;> decide

theorem triggering_iff (detail : Detail) :
    triggering table config consumer detail = true ↔
      ∃ d, Reaches table config consumer detail d := by
  have hexceeds : detailExceedsThreshold table config consumer detail = true ↔
      ∃ d, detail.type = Dimension.type d ∧
        levelToInt table (config.getLevelBar consumer d) ≤ levelToInt table detail.level := by
    rw [detailExceedsThreshold]
    split
    · rename_i d hd
      rw [Dimension.ofType_eq_some_iff] at hd
      constructor
      · intro h
        exact ⟨d, hd, by simpa using h⟩
      · rintro ⟨d', hd', h⟩
        have : d = d' := by
          have := Dimension.ofType_eq_some_iff.mpr hd
          rw [Dimension.ofType_eq_some_iff.mpr hd'] at this
          exact (Option.some.inj this).symm
        subst this
        simpa using h
    · rename_i hnone
      constructor
      · simp
      · rintro ⟨d, hd, -⟩
        rw [Dimension.ofType_eq_some_iff.mpr hd] at hnone
        simp at hnone
  constructor
  · intro h
    rw [triggering, detailTriggersBlock] at h
    split_ifs at h with hblock hmask
    · obtain ⟨d, htype, hlevel⟩ := hexceeds.mp h
      exact ⟨d, htype, hlevel, .inl hblock⟩
    · obtain ⟨d, htype, hlevel⟩ := hexceeds.mp h
      exact ⟨d, htype, hlevel, .inr hmask⟩
  · rintro ⟨d, htype, hlevel, hunmasked⟩
    have h := hexceeds.mpr ⟨d, htype, hlevel⟩
    rw [triggering, detailTriggersBlock, h]
    rcases hunmasked with hblock | hmask
    · simp [hblock]
    · simp [hmask]

/-- The explanation has something to say. -/
theorem getUnacceptableDetail_ne_nil_iff (data : Data) :
    getUnacceptableDetail table config consumer data ≠ [] ↔
      levelToInt table (config.getLevelBar consumer .contentModeration) ≤
          levelToInt table data.riskLevel ∨
        levelToInt table (config.getLevelBar consumer .promptAttack) ≤
          levelToInt table data.attackLevel ∨
        ∃ detail ∈ data.detail, triggering table config consumer detail = true := by
  rw [getUnacceptableDetail]
  by_cases hnone : data.detail.filter (triggering table config consumer) = []
  · rw [if_pos hnone, synthesized]
    have hno : ¬∃ detail ∈ data.detail, triggering table config consumer detail = true := by
      rintro ⟨detail, hmem, h⟩
      exact List.filter_eq_nil_iff.mp hnone detail hmem h
    split_ifs <;> simp_all
  · rw [if_neg hnone]
    obtain ⟨detail, hmem⟩ := List.exists_mem_of_ne_nil _ hnone
    rw [List.mem_filter] at hmem
    exact ⟨fun _ => .inr (.inr ⟨detail, hmem⟩), fun _ => hnone⟩

/-- For the actions of `MultiModalGuard` a block is explained. -/
theorem explained_of_multiModal {data : Data}
    (h : evaluateRiskMultiModal table config consumer data = .block) :
    getUnacceptableDetail table config consumer data ≠ [] := by
  rw [getUnacceptableDetail_ne_nil_iff]
  rw [evaluateRiskMultiModal] at h
  split_ifs at h with hrisk hattack
  · exact .inl hrisk
  · exact .inr (.inl hattack)
  · exact .inr (.inr ((evaluateDetails_eq_block_iff _ _).mp h))

end Explained

/-! ### The bars of an accepted configuration -/

theorem exists_of_bind_eq_ok {α β ε : Type} {x : Except ε α} {f : α → Except ε β} {r : β}
    (h : x >>= f = .ok r) : ∃ a, x = .ok a ∧ f a = .ok r := by
  cases x with
  | error e => cases h
  | ok a => exact ⟨a, rfl, h⟩

/-- An invariant of the steps of a loop that can fail. -/
theorem foldlM_invariant {σ α ε : Type} {f : σ → α → Except ε σ} {P : σ → Prop}
    (hstep : ∀ s a t, P s → f s a = .ok t → P t) {l : List α} {s t : σ} (hs : P s)
    (h : l.foldlM f s = .ok t) : P t := by
  induction l generalizing s with
  | nil =>
      cases h
      exact hs
  | cons a l ih =>
      rw [List.foldlM_cons] at h
      obtain ⟨u, hfirst, hrest⟩ := exists_of_bind_eq_ok h
      exact ih (hstep s a u hs hfirst) hrest

section Accepted

variable {Value : Type} {lib : Reader Value} {table : CaseTable} {config accepted : AISecurityConfig}
  {json : Value}

/-- Each bar of the configuration itself names a level above `none`. -/
def BarsNamed (table : CaseTable) (config : AISecurityConfig) : Prop :=
  ∀ d, 0 < levelToInt table (config.bar d)

theorem barsNamed_default (config : AISecurityConfig) : BarsNamed table config.setDefaultValues := by
  intro d
  cases d
  case sensitiveData =>
    change 0 < levelToInt table (bytes "s4")
    rw [levelToInt_s4]
    decide
  all_goals
    change 0 < levelToInt table (bytes "max")
    rw [levelToInt_max]
    decide

theorem bar_setAction (config : AISecurityConfig) (action : GoString) (d d' : Dimension) :
    (config.setAction action d).bar d' = config.bar d' := by
  cases d <;> cases d' <;> rfl

theorem bar_setBar (config : AISecurityConfig) (bar : GoString) (d d' : Dimension) :
    (config.setBar bar d).bar d' = if d' = d then bar else config.bar d' := by
  cases d <;> cases d' <;> rfl

theorem parseService_barsNamed (h : parseService lib config json = .ok accepted) :
    BarsNamed table accepted := by
  unfold parseService at h
  dsimp only at h
  split_ifs at h
  · obtain ⟨_, hthrow, -⟩ := exists_of_bind_eq_ok h
    cases hthrow
  · obtain ⟨_, hthrow, -⟩ := exists_of_bind_eq_ok h
    cases hthrow
  · obtain ⟨_, hthrow, -⟩ := exists_of_bind_eq_ok h
    cases hthrow
  · cases h
    exact barsNamed_default _

theorem readDimensionAction_bar {isMultiModalGuard : Bool} {d : Dimension}
    (h : readDimensionAction lib isMultiModalGuard json config d = .ok accepted) :
    accepted.bar = config.bar := by
  ext d' : 1
  rw [readDimensionAction] at h
  split_ifs at h
  · cases hval : parseDimensionAction lib json d.actionKey with
    | error e =>
        rw [hval] at h
        cases h
    | ok val =>
        rw [hval] at h
        cases h
        exact bar_setAction config val d d'
  · cases h
    split_ifs
    · exact bar_setAction config _ d d'
    · rfl

theorem parseActions_bar (h : parseActions lib config json = .ok accepted) :
    accepted.bar = config.bar := by
  unfold parseActions at h
  dsimp only at h
  split_ifs at h
  · cases h
  · refine foldlM_invariant (P := fun c => c.bar = config.bar) (fun s d t hs hstep => ?_) rfl h
    rw [readDimensionAction_bar hstep, hs]

theorem parseFields_bar (h : parseFields lib config json = .ok accepted) :
    accepted.bar = config.bar := by
  unfold parseFields at h
  obtain ⟨denyFormat, -, h⟩ := exists_of_bind_eq_ok h
  obtain ⟨fallback, -, h⟩ := exists_of_bind_eq_ok h
  obtain ⟨streamFallback, -, h⟩ := exists_of_bind_eq_ok h
  cases h
  ext d : 1
  cases d <;> rfl

theorem parseLevelBar_barsNamed {d : Dimension} (hbars : BarsNamed table config)
    (h : parseLevelBar lib table json config d = .ok accepted) : BarsNamed table accepted := by
  rw [parseLevelBar] at h
  dsimp only at h
  split_ifs at h with hgiven hlevel
  · cases h
    intro d'
    rw [bar_setBar]
    split_ifs
    · omega
    · exact hbars d'
  · cases h
    exact hbars

theorem parseConsumers_bar (h : parseConsumers lib config json = .ok accepted) :
    accepted.bar = config.bar := by
  unfold parseConsumers at h
  obtain ⟨request, -, h⟩ := exists_of_bind_eq_ok h
  obtain ⟨response, -, h⟩ := exists_of_bind_eq_ok h
  obtain ⟨riskLevel, -, h⟩ := exists_of_bind_eq_ok h
  cases h
  ext d : 1
  cases d <;> rfl

/-- The bars are read after their defaults are set, and each is checked. -/
theorem parse_barsNamed (h : parse lib table config json = .ok accepted) :
    BarsNamed table accepted := by
  obtain ⟨c₁, hservice, h⟩ := exists_of_bind_eq_ok h
  obtain ⟨c₂, hactions, h⟩ := exists_of_bind_eq_ok h
  obtain ⟨c₃, hfields, h⟩ := exists_of_bind_eq_ok h
  obtain ⟨c₄, hbars, hconsumers⟩ := exists_of_bind_eq_ok h
  have h₁ : BarsNamed table c₁ := parseService_barsNamed hservice
  have h₃ : BarsNamed table c₃ := by
    intro d
    rw [parseFields_bar hfields, parseActions_bar hactions]
    exact h₁ d
  have h₄ : BarsNamed table c₄ :=
    foldlM_invariant (fun _ _ _ hs hstep => parseLevelBar_barsNamed hs hstep) h₃ hbars
  intro d
  rw [parseConsumers_bar hconsumers]
  exact h₄ d

end Accepted

/-! ### Every block explains itself -/

section Main

variable {Value : Type} {lib : Reader Value} {table : CaseTable} {start config : AISecurityConfig}
  {json : Value}

/-- A block comes with a detail. -/
def Explained (table : CaseTable) (config : AISecurityConfig) (consumer action : GoString)
    (data : Data) : Prop :=
  evaluateRisk table config consumer action data = .block →
    getUnacceptableDetail table config consumer data ≠ []

/-- The action is one of those that compare with the bars of the dimensions. -/
def IsMultiModal (action : GoString) : Prop :=
  action = multiModalGuard ∨ action = multiModalGuardForBase64

/-- The rule of the consumer has a bar of its own for the dimension. -/
def Overrides (config : AISecurityConfig) (consumer : GoString) (d : Dimension) : Prop :=
  ∃ rule v, config.getMatchedConsumerRiskRule consumer = some rule ∧
    rule.members.lookup d.levelBarKey = some v

theorem getLevelBar_of_not_overrides {consumer : GoString} {d : Dimension}
    (h : ¬Overrides config consumer d) : config.getLevelBar consumer d = config.bar d := by
  rw [AISecurityConfig.getLevelBar, AISecurityConfig.overridden]
  split
  · rename_i rule hrule
    split
    · rename_i v hv
      exact absurd ⟨rule, v, hrule, hv⟩ h
    · rfl
  · rfl

theorem explained_data_iff (consumer action : GoString) (data : Data) :
    Explained table config consumer action data ↔
      IsMultiModal action ∨
      levelToInt table data.riskLevel < levelToInt table (config.getRiskLevelBar consumer) ∨
      levelToInt table (config.getLevelBar consumer .contentModeration) ≤
        levelToInt table data.riskLevel ∨
      levelToInt table (config.getLevelBar consumer .promptAttack) ≤
        levelToInt table data.attackLevel ∨
      ∃ detail ∈ data.detail, ∃ d, Reaches table config consumer detail d := by
  rw [Explained, getUnacceptableDetail_ne_nil_iff, evaluateRisk]
  simp only [triggering_iff]
  by_cases hmulti : action = multiModalGuard ∨ action = multiModalGuardForBase64
  · rw [if_pos hmulti]
    refine iff_of_true (fun h => ?_) (.inl hmulti)
    have := explained_of_multiModal h
    rw [getUnacceptableDetail_ne_nil_iff] at this
    simpa only [triggering_iff] using this
  · rw [if_neg hmulti]
    have hnot : ¬IsMultiModal action := hmulti
    split_ifs with hbelow
    · exact iff_of_true nofun (.inr (.inl hbelow))
    · constructor
      · intro h
        exact .inr (.inr (h rfl))
      · rintro (h | h | h) -
        · exact absurd h hnot
        · exact absurd h hbelow
        · exact h

/-- Answers without details and without an attack are explained by their level alone. -/
theorem explained_all_iff {consumer action : GoString} (hmulti : ¬IsMultiModal action)
    (hattack : 0 < levelToInt table (config.getLevelBar consumer .promptAttack)) :
    (∀ data, Explained table config consumer action data) ↔
      levelToInt table (config.getLevelBar consumer .contentModeration) ≤
        levelToInt table (config.getRiskLevelBar consumer) := by
  constructor
  · intro h
    have hdata := (explained_data_iff consumer action
      ⟨config.getRiskLevelBar consumer, [], []⟩).mp (h _)
    rcases hdata with h | h | h | h | ⟨detail, hmem, -⟩
    · exact absurd h hmulti
    · exact absurd h (lt_irrefl _)
    · exact h
    · rw [levelToInt_nil] at h
      omega
    · cases hmem
  · intro h data
    rw [explained_data_iff]
    by_cases hbelow : levelToInt table data.riskLevel <
        levelToInt table (config.getRiskLevelBar consumer)
    · exact .inr (.inl hbelow)
    · exact .inr (.inr (.inl (by omega)))

/-- For an accepted configuration, a consumer and an action, a block of an answer comes with a
detail if and only if the action is one of `MultiModalGuard`, or the level is below
`riskLevelBar`, or the level, the level of the attack or a detail reaches the bar that it is
compared with. All blocks do, for an action other than those of `MultiModalGuard` and a consumer
without a `promptAttackLevelBar` of its own, if and only if `contentModerationLevelBar` is at most
`riskLevelBar`. -/
theorem explained_iff (h : parse lib table start json = .ok config) (consumer action : GoString) :
    (∀ data, Explained table config consumer action data ↔
      IsMultiModal action ∨
      levelToInt table data.riskLevel < levelToInt table (config.getRiskLevelBar consumer) ∨
      levelToInt table (config.getLevelBar consumer .contentModeration) ≤
        levelToInt table data.riskLevel ∨
      levelToInt table (config.getLevelBar consumer .promptAttack) ≤
        levelToInt table data.attackLevel ∨
      ∃ detail ∈ data.detail, ∃ d, Reaches table config consumer detail d) ∧
    (¬IsMultiModal action → ¬Overrides config consumer .promptAttack →
      ((∀ data, Explained table config consumer action data) ↔
        levelToInt table (config.getLevelBar consumer .contentModeration) ≤
          levelToInt table (config.getRiskLevelBar consumer))) := by
  refine ⟨explained_data_iff consumer action, fun hmulti hoverrides => ?_⟩
  refine explained_all_iff hmulti ?_
  rw [getLevelBar_of_not_overrides hoverrides]
  exact parse_barsNamed h .promptAttack

end Main

/-! A configuration with the fields that are required, read as `gjson` reads it. -/

namespace Sample

/-- The members of a configuration: texts and numbers. -/
inductive Scalar
  | missing
  | text (s : GoString)
  | number (n : ℤ)
  | object (members : List (GoString × Scalar))

namespace Scalar

def get : Scalar → GoString → Scalar
  | object members, name => (members.lookup name).getD missing
  | _, _ => missing

end Scalar

def scalars : Reader Scalar where
  get := Scalar.get
  exists? v := match v with
    | .missing => false
    | _ => true
  string v := match v with
    | .text s => s
    | .number n => bytes (toString n)
    | _ => []
  int v := match v with
    | .number n => n
    | _ => 0
  bool _ := false
  isArray _ := false
  isString v := match v with
    | .text _ => true
    | _ => false
  array v := match v with
    | .missing => []
    | v => [v]
  map v := match v with
    | .object members => members.map fun m => (m.1, match m.2 with
        | .text s => .string s
        | _ => .other [])
    | _ => []
  compile _ := none

def guardConfig : Scalar := .object [
  (bytes "serviceName", .text (bytes "green.dns")), (bytes "servicePort", .number 443),
  (bytes "serviceHost", .text (bytes "green-cip.example")), (bytes "accessKey", .text (bytes "ak")),
  (bytes "secretKey", .text (bytes "sk"))]

def guardParsed : AISecurityConfig :=
  AISecurityConfig.setDefaultValues {
    client := (bytes "green.dns", 443)
    host := bytes "green-cip.example"
    ak := bytes "ak"
    sk := bytes "sk"
    action := textModerationPlus }

theorem parse_guardConfig : parse scalars plainCaseTable {} guardConfig = .ok guardParsed := rfl

end Sample

open Sample in
/-- With the defaults, a high risk without details is blocked without a detail. -/
theorem block_unexplained :
    parse scalars plainCaseTable {} guardConfig = .ok guardParsed ∧
      ¬Explained plainCaseTable guardParsed [] guardParsed.action ⟨bytes "high", [], []⟩ := by
  refine ⟨parse_guardConfig, fun h => ?_⟩
  have hbar : levelToInt plainCaseTable (bytes "high") = 3 := levelToInt_high _
  rcases (explained_data_iff _ _ _).mp h with hmulti | hbelow | hrisk | hattack | ⟨d, hmem, -⟩
  · revert hmulti
    rw [IsMultiModal]
    decide
  · exact absurd hbelow (lt_irrefl _)
  · have hmax : levelToInt plainCaseTable (bytes "max") ≤ levelToInt plainCaseTable (bytes "high") :=
      hrisk
    rw [levelToInt_max, levelToInt_high] at hmax
    omega
  · have hmax : levelToInt plainCaseTable (bytes "max") ≤ levelToInt plainCaseTable [] := hattack
    rw [levelToInt_max, levelToInt_nil] at hmax
    omega
  · cases hmem

open Sample in
theorem explained_guardConfig :
    parse scalars plainCaseTable {} guardConfig = .ok guardParsed ∧
      Explained plainCaseTable guardParsed [] guardParsed.action ⟨bytes "max", [], []⟩ := by
  refine ⟨parse_guardConfig, ?_⟩
  refine ((explained_iff parse_guardConfig [] guardParsed.action).1 _).mpr (.inr (.inr (.inl ?_)))
  exact le_refl (levelToInt plainCaseTable (bytes "max"))

end Higress.AiSecurityGuard
