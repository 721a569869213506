import Mathlib
import Higress.Lib.GoString

/-!
Which configs depend on which secrets (`pkg/ingress/config/secret_config_mgr.go`). A
config is added for a secret when a reference to it has been resolved, and deleted when
it has no references left.

Configs are kept under their kind, namespace and name, but whether there is anything to
delete is looked up by namespace and name only. With two kinds of one name, the first
deletion makes the second one a no-op.
-/

namespace Higress.Ingress

open Lib

/-- `ConfigKey`. -/
structure ConfigKey (κ : Type) where
  kind : κ
  name : GoString
  «namespace» : GoString
  deriving DecidableEq

/-- The part of a `config.Config` that identifies it. -/
structure ConfigMeta (γ : Type) where
  groupVersionKind : γ
  name : GoString
  «namespace» : GoString

/-- `SecretConfigMgr`. -/
structure SecretConfigMgr (κ : Type) where
  configSet : Finset GoString
  secretToConfigs : AList fun _ : GoString => Finset (ConfigKey κ)
  watchedSecrets : Finset GoString

/-- `fmt.Sprintf("%s/%s", namespace, name)`. -/
def slashed (ns name : GoString) : GoString := ns ++ bytes "/" ++ name

def ConfigMeta.configId {γ : Type} (cfg : ConfigMeta γ) : GoString := slashed cfg.namespace cfg.name

variable {γ κ : Type} [DecidableEq κ] (mustToKind : γ → κ)

/-- `toConfigKey`. -/
def ConfigMeta.toConfigKey (cfg : ConfigMeta γ) : ConfigKey κ :=
  ⟨mustToKind cfg.groupVersionKind, cfg.name, cfg.namespace⟩

namespace SecretConfigMgr

/-- `NewSecretConfigMgr`. -/
def new : SecretConfigMgr κ := ⟨∅, ∅, ∅⟩

/-- `AddConfig`. -/
def addConfig (m : SecretConfigMgr κ) (secretKey : GoString) (cfg : ConfigMeta γ) :
    SecretConfigMgr κ where
  configSet := insert cfg.configId m.configSet
  secretToConfigs :=
    match m.secretToConfigs.lookup secretKey with
    | some configs => m.secretToConfigs.insert secretKey (insert (cfg.toConfigKey mustToKind) configs)
    | none => m.secretToConfigs.insert secretKey {cfg.toConfigKey mustToKind}
  watchedSecrets := insert secretKey m.watchedSecrets

/-- The loop of `DeleteConfig` over the secrets, with `removeKeys`. -/
def removeFrom (configKey : ConfigKey κ)
    (left : (AList fun _ : GoString => Finset (ConfigKey κ)) × List GoString) (secretKey : GoString) :
    (AList fun _ : GoString => Finset (ConfigKey κ)) × List GoString :=
  match left.1.lookup secretKey with
  | none => left
  | some configs =>
      if configKey ∈ configs then
        (left.1.insert secretKey (configs.erase configKey),
          if (configs.erase configKey).card = 0 then left.2 ++ [secretKey] else left.2)
      else left

/-- `DeleteConfig`. -/
def deleteConfig (m : SecretConfigMgr κ) (cfg : ConfigMeta γ) : SecretConfigMgr κ :=
  if cfg.configId ∈ m.configSet then
    let (secretToConfigs, removeKeys) := m.secretToConfigs.keys.foldl
      (removeFrom (cfg.toConfigKey mustToKind)) (m.secretToConfigs, [])
    { configSet := m.configSet.erase cfg.configId
      secretToConfigs := removeKeys.foldl (fun entries secretKey => entries.erase secretKey) secretToConfigs
      watchedSecrets := removeKeys.foldl Finset.erase m.watchedSecrets }
  else m

/-- `GetConfigsForSecret`, as a set. -/
def getConfigsForSecret (m : SecretConfigMgr κ) (secretKey : GoString) : Finset (ConfigKey κ) :=
  (m.secretToConfigs.lookup secretKey).getD ∅

/-- `IsSecretWatched`. -/
def isSecretWatched (m : SecretConfigMgr κ) (secretKey : GoString) : Bool :=
  secretKey ∈ m.watchedSecrets

/-- `HandleSecretChange`: whether an update is pushed. -/
def handleSecretChange (m : SecretConfigMgr κ) (ns name : GoString) : Bool :=
  m.isSecretWatched (slashed ns name) && m.getConfigsForSecret (slashed ns name) ≠ ∅

end SecretConfigMgr

/-- A call of the manager. -/
inductive SecretOp (γ : Type)
  | add (secretKey : GoString) (cfg : ConfigMeta γ)
  | delete (cfg : ConfigMeta γ)

namespace SecretConfigMgr

def apply (m : SecretConfigMgr κ) : SecretOp γ → SecretConfigMgr κ
  | .add secretKey cfg => m.addConfig mustToKind secretKey cfg
  | .delete cfg => m.deleteConfig mustToKind cfg

/-- The manager after some calls. -/
def after (ops : List (SecretOp γ)) : SecretConfigMgr κ := ops.foldl (apply mustToKind) new

end SecretConfigMgr

/-! ### What the calls ask for -/

/-- The config was added for the secret, and not deleted since. -/
def DependsOn (ops : List (SecretOp γ)) (secretKey : GoString) (key : ConfigKey κ) : Prop :=
  ∃ before cfg after, ops = before ++ .add secretKey cfg :: after ∧
    cfg.toConfigKey mustToKind = key ∧
    ∀ cfg', SecretOp.delete cfg' ∈ after → cfg'.toConfigKey mustToKind ≠ key

namespace SecretConfigMgr

/-- The watched secrets are those with configs, and have some. -/
structure Watching (m : SecretConfigMgr κ) : Prop where
  watched : ∀ secretKey, secretKey ∈ m.watchedSecrets ↔ secretKey ∈ m.secretToConfigs
  nonempty : ∀ secretKey configs, m.secretToConfigs.lookup secretKey = some configs → configs.Nonempty

/-- The bookkeeping is what the calls ask for, and a deletion leaves every other config
alone. -/
structure Kept (m : SecretConfigMgr κ) (ops : List (SecretOp γ)) : Prop where
  watching : m.Watching
  configs : ∀ secretKey key,
    key ∈ m.getConfigsForSecret secretKey ↔ DependsOn mustToKind ops secretKey key
  others : ∀ (cfg : ConfigMeta γ) key, key ≠ cfg.toConfigKey mustToKind → ∀ secretKey,
    (key ∈ (m.deleteConfig mustToKind cfg).getConfigsForSecret secretKey ↔
      key ∈ m.getConfigsForSecret secretKey)

/-- A config that is deleted is not mapped to by any secret, unless some config of its
namespace and name is in the set. -/
def Deletable (m : SecretConfigMgr κ) : SecretOp γ → Prop
  | .add _ _ => True
  | .delete cfg => cfg.configId ∈ m.configSet ∨
      ∀ secretKey, cfg.toConfigKey mustToKind ∉ m.getConfigsForSecret secretKey

/-- Every deletion of a run is effective where it is made. -/
def AllDeletable (m : SecretConfigMgr κ) : List (SecretOp γ) → Prop
  | [] => True
  | op :: ops => m.Deletable mustToKind op ∧ AllDeletable (m.apply mustToKind op) ops

/-! ### One call -/

variable {mustToKind} {m : SecretConfigMgr κ}

/-- An update of an entry, whether it was there or not. -/
theorem lookup_addConfig (m : SecretConfigMgr κ) (secretKey : GoString) (cfg : ConfigMeta γ)
    (s : GoString) :
    (m.addConfig mustToKind secretKey cfg).secretToConfigs.lookup s =
      if s = secretKey then some (insert (cfg.toConfigKey mustToKind) (m.getConfigsForSecret s))
      else m.secretToConfigs.lookup s := by
  rw [addConfig, getConfigsForSecret]
  by_cases hs : s = secretKey
  · subst hs
    rw [if_pos rfl]
    cases hlookup : m.secretToConfigs.lookup s with
    | none => simp
    | some configs => simp
  · rw [if_neg hs]
    cases hlookup : m.secretToConfigs.lookup secretKey with
    | none => simp [AList.lookup_insert_ne hs]
    | some configs => simp [AList.lookup_insert_ne hs]

theorem Watching.addConfig (h : m.Watching) (secretKey : GoString) (cfg : ConfigMeta γ) :
    (m.addConfig mustToKind secretKey cfg).Watching := by
  constructor
  · intro s
    rw [← AList.lookup_isSome, lookup_addConfig]
    show s ∈ insert secretKey m.watchedSecrets ↔ _
    by_cases hs : s = secretKey
    · simp [hs]
    · rw [if_neg hs, Finset.mem_insert, AList.lookup_isSome, h.watched]
      exact or_iff_right hs
  · intro s configs hlookup
    rw [lookup_addConfig] at hlookup
    split at hlookup
    · rw [← Option.some.inj hlookup]
      exact Finset.insert_nonempty _ _
    · exact h.nonempty s configs hlookup

theorem mem_addConfig (secretKey : GoString) (cfg : ConfigMeta γ) (s : GoString)
    (key : ConfigKey κ) :
    key ∈ (m.addConfig mustToKind secretKey cfg).getConfigsForSecret s ↔
      key ∈ m.getConfigsForSecret s ∨ s = secretKey ∧ key = cfg.toConfigKey mustToKind := by
  rw [getConfigsForSecret, lookup_addConfig]
  by_cases hs : s = secretKey
  · rw [if_pos hs]
    simp [hs, or_comm]
  · rw [if_neg hs]
    simp [hs, getConfigsForSecret]

theorem removeFrom_step (configKey : ConfigKey κ) (secretKey : GoString)
    (left : (AList fun _ : GoString => Finset (ConfigKey κ)) × List GoString) (s : GoString) :
    ((removeFrom configKey left secretKey).1.lookup s =
      if s = secretKey then (left.1.lookup s).map (Finset.erase · configKey)
      else left.1.lookup s) ∧
    (s ∈ (removeFrom configKey left secretKey).2 ↔
      s ∈ left.2 ∨ s = secretKey ∧ left.1.lookup s = some {configKey}) := by
  rw [removeFrom]
  cases hlookup : left.1.lookup secretKey with
  | none =>
      by_cases hs : s = secretKey
      · subst hs
        simp [hlookup]
      · simp [hs]
  | some configs =>
      by_cases hmem : configKey ∈ configs
      · have hempty : (configs.erase configKey).card = 0 ↔ configs = {configKey} := by
          rw [Finset.card_eq_zero, Finset.erase_eq_empty_iff]
          exact or_iff_right (Finset.ne_empty_of_mem hmem)
        simp only [hmem, if_true, hempty]
        by_cases hs : s = secretKey
        · subst hs
          by_cases hone : configs = {configKey}
          · simp [hlookup, hone]
          · simp [hlookup, hone]
        · simp only [AList.lookup_insert_ne hs, hs, if_false, false_and, or_false, true_and]
          split
          · simp [hs]
          · exact Iff.rfl
      · have hne : configs ≠ {configKey} := by
          rintro rfl
          exact hmem (Finset.mem_singleton_self _)
        by_cases hs : s = secretKey
        · subst hs
          simp [hmem, hlookup, hne]
        · simp [hmem, hs]

/-- The loop takes the config out of the entries it comes to, and notes those that are
empty then. -/
theorem removeFrom_loop (configKey : ConfigKey κ) (secretKeys : List GoString)
    (left : (AList fun _ : GoString => Finset (ConfigKey κ)) × List GoString) (s : GoString) :
    ((secretKeys.foldl (removeFrom configKey) left).1.lookup s =
      if s ∈ secretKeys then (left.1.lookup s).map (Finset.erase · configKey)
      else left.1.lookup s) ∧
    (s ∈ (secretKeys.foldl (removeFrom configKey) left).2 ↔
      s ∈ left.2 ∨ s ∈ secretKeys ∧ left.1.lookup s = some {configKey}) := by
  induction secretKeys generalizing left with
  | nil => simp
  | cons secretKey secretKeys ih =>
      obtain ⟨hlookup, hremove⟩ := removeFrom_step configKey secretKey left s
      obtain ⟨hlookup', hremove'⟩ := ih (removeFrom configKey left secretKey)
      rw [List.foldl_cons, hlookup', hremove', hlookup, hremove]
      by_cases hs : s = secretKey
      · -- what has been taken out is not taken out again
        cases hold : left.1.lookup s with
        | none => simp [hs]
        | some configs =>
            have hne : configs.erase configKey ≠ {configKey} := fun heq =>
              Finset.notMem_erase configKey configs (heq ▸ Finset.mem_singleton_self _)
            simp [hs, hne]
      · simp [hs]

theorem foldl_erase_finset (names : List GoString) (set : Finset GoString) (s : GoString) :
    s ∈ names.foldl Finset.erase set ↔ s ∈ set ∧ s ∉ names := by
  induction names generalizing set with
  | nil => simp
  | cons name names ih =>
      rw [List.foldl_cons, ih, Finset.mem_erase, List.mem_cons]
      tauto

theorem lookup_foldl_erase {α : Type} (names : List GoString) (entries : AList fun _ : GoString => α)
    (s : GoString) :
    (names.foldl (fun entries name => entries.erase name) entries).lookup s =
      if s ∈ names then none else entries.lookup s := by
  induction names generalizing entries with
  | nil => simp
  | cons name names ih =>
      rw [List.foldl_cons, ih]
      by_cases hs : s = name
      · subst hs
        simp
      · simp [AList.lookup_erase_ne hs, hs]

/-- The entries after a deletion that finds the name in the set. -/
theorem lookup_deleteConfig {cfg : ConfigMeta γ} (hset : cfg.configId ∈ m.configSet) (s : GoString) :
    (m.deleteConfig mustToKind cfg).secretToConfigs.lookup s =
      (if m.secretToConfigs.lookup s = some {cfg.toConfigKey mustToKind} then none
      else (m.secretToConfigs.lookup s).map (Finset.erase · (cfg.toConfigKey mustToKind))) ∧
    (s ∈ (m.deleteConfig mustToKind cfg).watchedSecrets ↔
      s ∈ m.watchedSecrets ∧ m.secretToConfigs.lookup s ≠ some {cfg.toConfigKey mustToKind}) := by
  obtain ⟨hlookup, hremove⟩ := removeFrom_loop (cfg.toConfigKey mustToKind) m.secretToConfigs.keys
    (m.secretToConfigs, []) s
  have hkeys : s ∈ m.secretToConfigs.keys ↔ (m.secretToConfigs.lookup s).isSome :=
    AList.mem_keys.symm.trans AList.lookup_isSome.symm
  rw [deleteConfig, if_pos hset]
  simp only [lookup_foldl_erase, foldl_erase_finset, hlookup, hremove, hkeys]
  cases hold : m.secretToConfigs.lookup s with
  | none => simp
  | some configs => simp

theorem Watching.deleteConfig (h : m.Watching) (cfg : ConfigMeta γ) :
    (m.deleteConfig mustToKind cfg).Watching := by
  by_cases hset : cfg.configId ∈ m.configSet
  · constructor
    · intro s
      obtain ⟨hlookup, hwatched⟩ := lookup_deleteConfig hset s
      rw [hwatched, h.watched, ← AList.lookup_isSome, ← AList.lookup_isSome, hlookup]
      split
      · simp_all
      · simp_all
    · intro s configs hlookup
      rw [(lookup_deleteConfig hset s).1] at hlookup
      split at hlookup
      · cases hlookup
      · rename_i hone
        obtain ⟨old, hold, rfl⟩ := Option.map_eq_some_iff.mp hlookup
        rw [Finset.nonempty_iff_ne_empty, Ne, Finset.erase_eq_empty_iff]
        rintro (rfl | rfl)
        · exact Finset.not_nonempty_empty (h.nonempty s _ hold)
        · exact hone hold
  · rwa [SecretConfigMgr.deleteConfig, if_neg hset]

theorem mem_deleteConfig (m : SecretConfigMgr κ) (cfg : ConfigMeta γ) (s : GoString)
    (key : ConfigKey κ) :
    key ∈ (m.deleteConfig mustToKind cfg).getConfigsForSecret s ↔
      key ∈ m.getConfigsForSecret s ∧
        ¬(cfg.configId ∈ m.configSet ∧ key = cfg.toConfigKey mustToKind) := by
  by_cases hset : cfg.configId ∈ m.configSet
  · rw [getConfigsForSecret, (lookup_deleteConfig hset s).1, getConfigsForSecret]
    by_cases hone : m.secretToConfigs.lookup s = some {cfg.toConfigKey mustToKind}
    · simp [hone, hset]
    · rw [if_neg hone]
      cases hold : m.secretToConfigs.lookup s with
      | none => simp
      | some configs => simp [hset, and_comm]
  · rw [deleteConfig, if_neg hset]
    simp [hset]

/-- A change of a secret is pushed exactly if the secret is watched. -/
theorem Watching.handleSecretChange_eq (h : m.Watching) (ns name : GoString) :
    m.handleSecretChange ns name = m.isSecretWatched (slashed ns name) := by
  rw [handleSecretChange, Bool.and_eq_left_iff_imp]
  intro hwatched
  have hmem := (h.watched _).mp (of_decide_eq_true hwatched)
  obtain ⟨configs, hconfigs⟩ := Option.isSome_iff_exists.mp (AList.lookup_isSome.mpr hmem)
  rw [getConfigsForSecret, hconfigs]
  exact decide_eq_true (h.nonempty _ configs hconfigs).ne_empty

/-! ### Runs -/

section Runs

variable {ops : List (SecretOp γ)} {s : GoString} {key : ConfigKey κ}

omit [DecidableEq κ] in
theorem dependsOn_snoc_add (secretKey : GoString) (cfg : ConfigMeta γ) :
    DependsOn mustToKind (ops ++ [.add secretKey cfg]) s key ↔
      DependsOn mustToKind ops s key ∨ s = secretKey ∧ key = cfg.toConfigKey mustToKind := by
  constructor
  · rintro ⟨before, cfg', after, hops, hkey, hafter⟩
    rcases List.eq_nil_or_concat' after with rfl | ⟨after, op, rfl⟩
    · obtain ⟨-, hlast⟩ := List.append_inj' hops rfl
      obtain ⟨rfl, rfl⟩ := SecretOp.add.inj (List.cons.inj hlast).1
      exact .inr ⟨rfl, hkey.symm⟩
    · rw [← List.cons_append, ← List.append_assoc] at hops
      obtain ⟨rfl, -⟩ := List.append_inj' hops rfl
      refine .inl ⟨before, cfg', after, rfl, hkey, fun cfg'' hmem => hafter cfg'' ?_⟩
      exact List.mem_append_left _ hmem
  · rintro (⟨before, cfg', after, rfl, hkey, hafter⟩ | ⟨rfl, rfl⟩)
    · refine ⟨before, cfg', after ++ [.add secretKey cfg], by simp, hkey, ?_⟩
      intro cfg'' hmem
      exact hafter cfg'' (by simpa using hmem)
    · exact ⟨ops, cfg, [], rfl, rfl, by simp⟩

omit [DecidableEq κ] in
theorem dependsOn_snoc_delete (cfg : ConfigMeta γ) :
    DependsOn mustToKind (ops ++ [.delete cfg]) s key ↔
      DependsOn mustToKind ops s key ∧ key ≠ cfg.toConfigKey mustToKind := by
  constructor
  · rintro ⟨before, cfg', after, hops, hkey, hafter⟩
    rcases List.eq_nil_or_concat' after with rfl | ⟨after, op, rfl⟩
    · obtain ⟨-, hlast⟩ := List.append_inj' hops rfl
      cases (List.cons.inj hlast).1
    · rw [← List.cons_append, ← List.append_assoc] at hops
      obtain ⟨rfl, hlast⟩ := List.append_inj' hops rfl
      obtain rfl := (List.cons.inj hlast).1
      refine ⟨⟨before, cfg', after, rfl, hkey, fun cfg'' hmem => hafter cfg'' ?_⟩, ?_⟩
      · exact List.mem_append_left _ hmem
      · exact (hafter cfg (by simp)).symm
  · rintro ⟨⟨before, cfg', after, rfl, hkey, hafter⟩, hne⟩
    refine ⟨before, cfg', after ++ [.delete cfg], by simp, hkey, ?_⟩
    intro cfg'' hmem
    rcases List.mem_append.mp hmem with hmem | hmem
    · exact hafter cfg'' hmem
    · obtain rfl := SecretOp.delete.inj (List.mem_singleton.mp hmem)
      exact hne.symm

theorem Watching.apply (h : m.Watching) (op : SecretOp γ) : (m.apply mustToKind op).Watching := by
  cases op with
  | add secretKey cfg => exact h.addConfig secretKey cfg
  | delete cfg => exact h.deleteConfig cfg

/-- After a state that is kept, a call keeps it exactly if it is effective. -/
theorem Kept.apply_iff (h : m.Kept mustToKind ops) (op : SecretOp γ) :
    (m.apply mustToKind op).Kept mustToKind (ops ++ [op]) ↔ m.Deletable mustToKind op := by
  have hothers : ∀ (m : SecretConfigMgr κ) (cfg : ConfigMeta γ) key,
      key ≠ cfg.toConfigKey mustToKind → ∀ secretKey,
      (key ∈ (m.deleteConfig mustToKind cfg).getConfigsForSecret secretKey ↔
        key ∈ m.getConfigsForSecret secretKey) := by
    intro m cfg key hne secretKey
    rw [mem_deleteConfig]
    exact and_iff_left fun heq => hne heq.2
  cases op with
  | add secretKey cfg =>
      refine iff_of_true ⟨h.watching.apply _, ?_, hothers _⟩ trivial
      intro s key
      rw [dependsOn_snoc_add, ← h.configs]
      exact mem_addConfig secretKey cfg s key
  | delete cfg =>
      have hmem : ∀ s key, key ∈ (m.apply mustToKind (.delete cfg)).getConfigsForSecret s ↔ _ :=
        mem_deleteConfig m cfg
      constructor
      · intro hkept
        by_contra hnot
        obtain ⟨hset, s, hs⟩ : cfg.configId ∉ m.configSet ∧
            ∃ s, cfg.toConfigKey mustToKind ∈ m.getConfigsForSecret s := by
          simpa [Deletable] using hnot
        have hgone := hkept.configs s (cfg.toConfigKey mustToKind)
        rw [dependsOn_snoc_delete, hmem] at hgone
        exact (hgone.mp ⟨hs, fun hin => hset hin.1⟩).2 rfl
      · intro hop
        refine ⟨h.watching.apply _, ?_, hothers _⟩
        intro s key
        rw [dependsOn_snoc_delete, ← h.configs, hmem]
        refine and_congr_right fun hkey => not_congr ?_
        rcases hop with hset | hnone
        · exact and_iff_right hset
        · refine iff_of_false (fun heq => ?_) fun heq => ?_
          · exact hnone s (heq.2 ▸ hkey)
          · exact hnone s (heq ▸ hkey)

theorem after_snoc (ops : List (SecretOp γ)) (op : SecretOp γ) :
    after mustToKind (ops ++ [op]) = (after mustToKind ops).apply mustToKind op := by
  rw [after, List.foldl_append]
  rfl

theorem allDeletable_snoc (m : SecretConfigMgr κ) (ops : List (SecretOp γ)) (op : SecretOp γ) :
    m.AllDeletable mustToKind (ops ++ [op]) ↔
      m.AllDeletable mustToKind ops ∧ (ops.foldl (apply mustToKind) m).Deletable mustToKind op := by
  induction ops generalizing m with
  | nil => simp [AllDeletable]
  | cons op' ops ih =>
      rw [List.cons_append, AllDeletable, AllDeletable, ih, and_assoc]
      rfl

theorem kept_new : (new : SecretConfigMgr κ).Kept mustToKind [] := by
  refine ⟨⟨by simp [new], by simp [new]⟩, ?_, ?_⟩
  · intro s key
    simp [getConfigsForSecret, new, DependsOn]
  · intro cfg key _ secretKey
    rw [mem_deleteConfig]
    simp [getConfigsForSecret, new]

variable (mustToKind)

/-- The bookkeeping over every history: it is kept in all states of a run exactly if no
config is deleted that a secret maps to while its namespace and name are not in the set,
because a config of another kind with this name has been deleted before. -/
theorem kept_iff_allDeletable (ops : List (SecretOp γ)) :
    (∀ before, before <+: ops → (after mustToKind before).Kept mustToKind before) ↔
      (new : SecretConfigMgr κ).AllDeletable mustToKind ops := by
  induction ops using List.reverseRecOn with
  | nil =>
      refine iff_of_true ?_ trivial
      intro before hbefore
      rw [List.prefix_nil.mp hbefore]
      exact kept_new
  | append_singleton ops op ih =>
      rw [allDeletable_snoc, ← ih]
      constructor
      · intro hkept
        have hbefore : ∀ before, before <+: ops → (after mustToKind before).Kept mustToKind before :=
          fun before h => hkept before (h.trans (List.prefix_append _ _))
        refine ⟨hbefore, ((hbefore ops List.prefix_rfl).apply_iff op).mp ?_⟩
        rw [← after_snoc]
        exact hkept _ List.prefix_rfl
      · rintro ⟨hkept, hop⟩ before hbefore
        rcases List.prefix_concat_iff.mp hbefore with rfl | hbefore
        · rw [after_snoc]
          exact ((hkept ops List.prefix_rfl).apply_iff op).mpr hop
        · exact hkept before hbefore

/-- In every state of a run, the secrets that are watched are those with a config, and exactly their
changes are pushed. -/
theorem watched_iff_nonempty (ops : List (SecretOp γ)) :
    (∀ secretKey, (after mustToKind ops).isSecretWatched secretKey = true ↔
      ((after mustToKind ops).getConfigsForSecret secretKey).Nonempty) ∧
    ∀ ns name, (after mustToKind ops).handleSecretChange ns name =
      (after mustToKind ops).isSecretWatched (slashed ns name) := by
  have h : (after mustToKind ops).Watching := by
    induction ops using List.reverseRecOn with
    | nil => exact (kept_new : (new : SecretConfigMgr κ).Kept mustToKind []).watching
    | append_singleton ops op ih =>
        rw [after_snoc]
        exact ih.apply op
  refine ⟨fun secretKey => ?_, h.handleSecretChange_eq⟩
  rw [isSecretWatched, decide_eq_true_iff, h.watched, ← AList.lookup_isSome, getConfigsForSecret]
  cases hconfigs : (after mustToKind ops).secretToConfigs.lookup secretKey with
  | none => simp
  | some configs => simpa using h.nonempty _ _ hconfigs

end Runs

/-- A config of the kind with the name `a`. -/
def sampleConfig (kind : GoString) : ConfigMeta GoString := ⟨kind, bytes "a", bytes "default"⟩

/-- Two configs of one name and different kinds are added and deleted; the secret still
maps to the second. -/
theorem not_kept_two_kinds :
    let ops := [.add (bytes "default/s") (sampleConfig (bytes "WasmPlugin")),
      .add (bytes "default/s") (sampleConfig (bytes "EnvoyFilter")),
      .delete (sampleConfig (bytes "WasmPlugin"))]
    let last := SecretOp.delete (sampleConfig (bytes "EnvoyFilter"))
    ¬(after id (ops ++ [last])).Kept id (ops ++ [last]) := by
  intro ops last hkept
  have hmem := (hkept.configs (bytes "default/s")
    ((sampleConfig (bytes "EnvoyFilter")).toConfigKey id)).mp (by decide +kernel)
  exact ((dependsOn_snoc_delete _).mp hmem).2 rfl

end SecretConfigMgr

end Higress.Ingress
