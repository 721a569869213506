import Mathlib
import Higress.Lib.GoString

/-!
The store of the service registries (`registry/memory/cache.go`). Services and
proxies are deleted in two steps: a deletion only notes the name, and the entry goes
when the stale items are purged at the end of a reconciliation, unless it has been
updated in between.

The two kinds do not know of each other, but an update of a proxy takes its name off
the pending deletions of services. So what a purge leaves is what the last operations
ask for exactly as long as no proxy is updated whose name is pending.
-/

namespace Higress.Registry

open Lib

/-- A map with string keys. -/
abbrev Entries (α : Type) := AList fun _ : GoString => α

/-- `ServiceWrapper` and `ProxyWrapper`: what they wrap, and when it was created. -/
structure Wrapper (α : Type) where
  data : α
  createTime : ℕ

/-- `store`, without the configurations and the index of endpoints, which these
operations do not touch. -/
structure Store (α β : Type) where
  sew : Entries (Wrapper α)
  toBeUpdated : List (Wrapper α)
  toBeDeleted : List (Wrapper α)
  deferredDeleteServices : Entries Unit
  pw : Entries (Wrapper β)
  deferredDeleteProxies : Entries Unit

variable {α β : Type}

namespace Store

/-- `NewCache`. -/
def new : Store α β := ⟨∅, [], [], ∅, ∅, ∅⟩

/-- An update keeps the time at which the entry was created. -/
def stamp {γ : Type} (old : Option (Wrapper γ)) (data : γ) (now : ℕ) : Wrapper γ :=
  ⟨data, (old.map Wrapper.createTime).getD now⟩

/-- `UpdateServiceWrapper`. -/
def updateServiceWrapper (s : Store α β) (service : GoString) (data : α) (now : ℕ) : Store α β :=
  let wrapper := stamp (s.sew.lookup service) data now
  { s with
    toBeUpdated := s.toBeUpdated ++ [wrapper]
    sew := s.sew.insert service wrapper
    deferredDeleteServices := s.deferredDeleteServices.erase service }

/-- `DeleteServiceWrapper`. -/
def deleteServiceWrapper (s : Store α β) (service : GoString) : Store α β :=
  match s.sew.lookup service with
  | none => s
  | some data =>
      { s with
        toBeDeleted := s.toBeDeleted ++ [data]
        deferredDeleteServices := s.deferredDeleteServices.insert service () }

/-- `UpdateProxyWrapper`; the pending deletions it looks at are those of services. -/
def updateProxyWrapper (s : Store α β) (name : GoString) (data : β) (now : ℕ) : Store α β :=
  { s with
    pw := s.pw.insert name (stamp (s.pw.lookup name) data now)
    deferredDeleteServices := s.deferredDeleteServices.erase name }

/-- `DeleteProxyWrapper`. -/
def deleteProxyWrapper (s : Store α β) (name : GoString) : Store α β :=
  match s.pw.lookup name with
  | none => s
  | some _ => { s with deferredDeleteProxies := s.deferredDeleteProxies.insert name () }

/-- One of the two loops of `PurgeStaleItems`. -/
def purge {γ : Type} (entries : Entries γ) (deferred : Entries Unit) : Entries γ × Entries Unit :=
  deferred.keys.foldl (fun left name => (left.1.erase name, left.2.erase name)) (entries, deferred)

/-- `PurgeStaleItems`, with whether anything was deleted. -/
def purgeStaleItems (s : Store α β) : Store α β × Bool :=
  let services := purge s.sew s.deferredDeleteServices
  let proxies := purge s.pw s.deferredDeleteProxies
  ({ s with
      sew := services.1
      deferredDeleteServices := services.2
      pw := proxies.1
      deferredDeleteProxies := proxies.2 },
    s.deferredDeleteServices.keys != [] || s.deferredDeleteProxies.keys != [])

end Store

/-- A call of the store. -/
inductive Op (α β : Type)
  | updateService (service : GoString) (data : α) (now : ℕ)
  | deleteService (service : GoString)
  | updateProxy (name : GoString) (data : β) (now : ℕ)
  | deleteProxy (name : GoString)
  | purge

def Store.apply (s : Store α β) : Op α β → Store α β
  | .updateService service data now => s.updateServiceWrapper service data now
  | .deleteService service => s.deleteServiceWrapper service
  | .updateProxy name data now => s.updateProxyWrapper name data now
  | .deleteProxy name => s.deleteProxyWrapper name
  | .purge => s.purgeStaleItems.1

/-- The store after some calls, from an empty one. -/
def Store.after (ops : List (Op α β)) : Store α β := ops.foldl Store.apply .new

/-! ### What the last operations ask for -/

inductive Kind
  | service
  | proxy
  deriving DecidableEq

/-- The name and the kind an operation is about, and whether it is an update. -/
def Op.target : Op α β → Option (Kind × GoString × Bool)
  | .updateService service _ _ => some (.service, service, true)
  | .deleteService service => some (.service, service, false)
  | .updateProxy name _ _ => some (.proxy, name, true)
  | .deleteProxy name => some (.proxy, name, false)
  | .purge => none

/-- The updates and deletions of one kind and name, in order. -/
def changes (kind : Kind) (name : GoString) (ops : List (Op α β)) : List Bool :=
  ops.filterMap fun op => (op.target.filter fun t => t.1 = kind ∧ t.2.1 = name).map fun t => t.2.2

/-- The last operation on the name was an update. -/
def Wanted (kind : Kind) (ops : List (Op α β)) (name : GoString) : Prop :=
  (changes kind name ops).getLast? = some true

instance (kind : Kind) (ops : List (Op α β)) (name : GoString) : Decidable (Wanted kind ops name) :=
  inferInstanceAs (Decidable (_ = _))

/-- The names the store has of a kind. -/
def Store.Has (s : Store α β) (name : GoString) : Kind → Prop
  | .service => name ∈ s.sew
  | .proxy => name ∈ s.pw

instance (s : Store α β) (name : GoString) : ∀ kind, Decidable (s.Has name kind)
  | .service => inferInstanceAs (Decidable (name ∈ s.sew.keys))
  | .proxy => inferInstanceAs (Decidable (name ∈ s.pw.keys))

/-- The names whose deletion is pending. -/
def Store.Deferred (s : Store α β) (name : GoString) : Kind → Prop
  | .service => name ∈ s.deferredDeleteServices
  | .proxy => name ∈ s.deferredDeleteProxies

/-- The maps hold the names that the operations ask for, of either kind. -/
def Store.Settled (s : Store α β) (ops : List (Op α β)) : Prop :=
  ∀ kind name, s.Has name kind ↔ Wanted kind ops name

/-- An update of a proxy is made while its name is pending neither as a service nor as a
proxy. -/
def Op.Undisturbing (s : Store α β) : Op α β → Prop
  | .updateProxy name _ _ => ∀ kind, ¬s.Deferred name kind
  | _ => True

/-- Every operation of a run is undisturbing where it is made. -/
def Undisturbed (s : Store α β) : List (Op α β) → Prop
  | [] => True
  | op :: ops => op.Undisturbing s ∧ Undisturbed (s.apply op) ops

/-! ### One operation -/

namespace Store

theorem mem_purge {γ : Type} (entries : Entries γ) (deferred : Entries Unit) (name : GoString) :
    (name ∈ (purge entries deferred).1 ↔ name ∈ entries ∧ name ∉ deferred) ∧
      name ∉ (purge entries deferred).2 := by
  have hfold : ∀ (keys : List GoString) (left : Entries γ × Entries Unit),
      let last := keys.foldl (fun left name => (left.1.erase name, left.2.erase name)) left
      (name ∈ last.1 ↔ name ∈ left.1 ∧ name ∉ keys) ∧ (name ∈ last.2 ↔ name ∈ left.2 ∧ name ∉ keys) := by
    intro keys
    induction keys with
    | nil => simp
    | cons key keys ih =>
        intro left
        obtain ⟨hfirst, hsecond⟩ := ih (left.1.erase key, left.2.erase key)
        simp only [List.foldl_cons, hfirst, hsecond, AList.mem_erase, List.mem_cons]
        tauto
  obtain ⟨hfirst, hsecond⟩ := hfold deferred.keys (entries, deferred)
  constructor
  · rw [purge, hfirst, ← AList.mem_keys]
  · rw [purge, hsecond, ← AList.mem_keys]
    tauto

variable (s : Store α β) (name n : GoString) (kind : Kind)

theorem updateService_effect (data : α) (now : ℕ) :
    ((s.updateServiceWrapper name data now).Has n kind ↔
      s.Has n kind ∨ kind = .service ∧ n = name) ∧
    ((s.updateServiceWrapper name data now).Deferred n kind ↔
      s.Deferred n kind ∧ ¬(kind = .service ∧ n = name)) := by
  cases kind with
  | service =>
      simp only [updateServiceWrapper, Has, Deferred, AList.mem_insert, AList.mem_erase, true_and]
      tauto
  | proxy => simp [updateServiceWrapper, Has, Deferred]

/-- The name is taken off the pending deletions of services. -/
theorem updateProxy_effect (data : β) (now : ℕ) :
    ((s.updateProxyWrapper name data now).Has n kind ↔ s.Has n kind ∨ kind = .proxy ∧ n = name) ∧
    ((s.updateProxyWrapper name data now).Deferred n kind ↔
      s.Deferred n kind ∧ ¬(kind = .service ∧ n = name)) := by
  cases kind with
  | service =>
      simp only [updateProxyWrapper, Has, Deferred, AList.mem_erase, true_and]
      simp [and_comm]
  | proxy =>
      simp only [updateProxyWrapper, Has, Deferred, AList.mem_insert, true_and]
      simp [or_comm]

theorem deleteService_effect :
    ((s.deleteServiceWrapper name).Has n kind ↔ s.Has n kind) ∧
    ((s.deleteServiceWrapper name).Deferred n kind ↔
      s.Deferred n kind ∨ s.Has n kind ∧ kind = .service ∧ n = name) := by
  rw [deleteServiceWrapper]
  split
  · rename_i hnone
    have hname : name ∉ s.sew := AList.lookup_eq_none.mp hnone
    refine ⟨Iff.rfl, (or_iff_left ?_).symm⟩
    rintro ⟨hhas, rfl, rfl⟩
    exact hname hhas
  · rename_i data hsome
    have hname : name ∈ s.sew := by
      rw [← AList.lookup_isSome, hsome]
      rfl
    cases kind with
    | service =>
        refine ⟨Iff.rfl, ?_⟩
        simp only [Deferred, Has, AList.mem_insert, true_and]
        constructor
        · rintro (rfl | h)
          · exact .inr ⟨hname, rfl⟩
          · exact .inl h
        · tauto
    | proxy => simp [Deferred, Has]

theorem deleteProxy_effect :
    ((s.deleteProxyWrapper name).Has n kind ↔ s.Has n kind) ∧
    ((s.deleteProxyWrapper name).Deferred n kind ↔
      s.Deferred n kind ∨ s.Has n kind ∧ kind = .proxy ∧ n = name) := by
  rw [deleteProxyWrapper]
  split
  · rename_i hnone
    have hname : name ∉ s.pw := AList.lookup_eq_none.mp hnone
    refine ⟨Iff.rfl, (or_iff_left ?_).symm⟩
    rintro ⟨hhas, rfl, rfl⟩
    exact hname hhas
  · rename_i data hsome
    have hname : name ∈ s.pw := by
      rw [← AList.lookup_isSome, hsome]
      rfl
    cases kind with
    | service => simp [Deferred, Has]
    | proxy =>
        refine ⟨Iff.rfl, ?_⟩
        simp only [Deferred, Has, AList.mem_insert, true_and]
        constructor
        · rintro (rfl | h)
          · exact .inr ⟨hname, rfl⟩
          · exact .inl h
        · tauto

theorem purge_effect :
    (s.purgeStaleItems.1.Has n kind ↔ s.Has n kind ∧ ¬s.Deferred n kind) ∧
      ¬s.purgeStaleItems.1.Deferred n kind := by
  cases kind with
  | service => exact mem_purge s.sew s.deferredDeleteServices n
  | proxy => exact mem_purge s.pw s.deferredDeleteProxies n

end Store

/-! ### Runs -/

theorem wanted_snoc (kind : Kind) (ops : List (Op α β)) (op : Op α β) (name : GoString) :
    Wanted kind (ops ++ [op]) name ↔
      if op.target.map (fun t => (t.1, t.2.1)) = some (kind, name) then
        op.target.map (fun t => t.2.2) = some true
      else Wanted kind ops name := by
  rw [Wanted, Wanted, changes, List.filterMap_append, ← changes]
  cases htarget : op.target with
  | none => simp [htarget]
  | some t =>
      obtain ⟨k, n, update⟩ := t
      by_cases h : k = kind ∧ n = name
      · simp [htarget, h]
      · have hnone : (some (k, n, update)).filter (fun t => t.1 = kind ∧ t.2.1 = name) = none := by
          rw [Option.filter_some, if_neg (by simpa using h)]
        rw [if_neg (by simpa using h)]
        simp only [List.filterMap_cons, List.filterMap_nil, htarget, hnone, Option.map_none,
          List.append_nil]

/-- What the store has and does not mean to delete is what the operations ask for. -/
def Store.Tracks (s : Store α β) (ops : List (Op α β)) : Prop :=
  ∀ kind name, (s.Has name kind ∧ ¬s.Deferred name kind ↔ Wanted kind ops name) ∧
    (s.Deferred name kind → s.Has name kind)

theorem tracks_new : (Store.new : Store α β).Tracks [] := by
  intro kind name
  cases kind <;> simp [Store.Has, Store.Deferred, Store.new, Wanted, changes]

theorem Store.Tracks.apply {s : Store α β} {ops : List (Op α β)} (h : s.Tracks ops) {op : Op α β}
    (hop : op.Undisturbing s) : (s.apply op).Tracks (ops ++ [op]) := by
  intro kind name
  obtain ⟨hlive, hhas⟩ := h kind name
  rw [wanted_snoc]
  cases op with
  | updateService service data now =>
      obtain ⟨heffect, heffect'⟩ := s.updateService_effect service name kind data now
      simp only [Store.apply, heffect, heffect']
      by_cases hc : kind = .service ∧ name = service
      · rw [if_pos (by simp [Op.target, hc])]
        simp [Op.target, hc]
      · rw [if_neg (by simpa [Op.target, eq_comm] using hc)]
        simpa [hc] using ⟨hlive, hhas⟩
  | deleteService service =>
      obtain ⟨heffect, heffect'⟩ := s.deleteService_effect service name kind
      simp only [Store.apply, heffect, heffect']
      by_cases hc : kind = .service ∧ name = service
      · rw [if_pos (by simp [Op.target, hc])]
        obtain ⟨rfl, rfl⟩ := hc
        simp only [Op.target, and_true, Option.map_some, Option.some.injEq, Bool.false_eq_true,
          iff_false]
        tauto
      · rw [if_neg (by simpa [Op.target, eq_comm] using hc)]
        simpa [hc] using ⟨hlive, hhas⟩
  | updateProxy proxy data now =>
      obtain ⟨heffect, heffect'⟩ := s.updateProxy_effect proxy name kind data now
      have hpending : name = proxy → ¬s.Deferred name kind := by
        rintro rfl
        exact hop kind
      -- the name is not pending as a service, so nothing is taken off
      have heffect'' : s.Deferred name kind ∧ ¬(kind = .service ∧ name = proxy) ↔
          s.Deferred name kind := and_iff_left_of_imp fun hd hc => hpending hc.2 hd
      simp only [Store.apply, heffect, heffect', heffect'']
      by_cases hc : kind = .proxy ∧ name = proxy
      · rw [if_pos (by simp [Op.target, hc])]
        have hnot := hpending hc.2
        simp only [Op.target, hc, and_true, or_true, true_and, Option.map_some, iff_true, implies_true]
        simpa [hc] using hnot
      · rw [if_neg (by simpa [Op.target, eq_comm] using hc)]
        simpa [hc] using ⟨hlive, hhas⟩
  | deleteProxy proxy =>
      obtain ⟨heffect, heffect'⟩ := s.deleteProxy_effect proxy name kind
      simp only [Store.apply, heffect, heffect']
      by_cases hc : kind = .proxy ∧ name = proxy
      · rw [if_pos (by simp [Op.target, hc])]
        obtain ⟨rfl, rfl⟩ := hc
        simp only [Op.target, and_true, Option.map_some, Option.some.injEq, Bool.false_eq_true,
          iff_false]
        tauto
      · rw [if_neg (by simpa [Op.target, eq_comm] using hc)]
        simpa [hc] using ⟨hlive, hhas⟩
  | purge =>
      obtain ⟨heffect, heffect'⟩ := s.purge_effect name kind
      rw [if_neg (by simp [Op.target])]
      simp only [Store.apply, heffect, heffect', not_false_eq_true, and_true, false_implies]
      exact hlive

theorem after_snoc (ops : List (Op α β)) (op : Op α β) :
    Store.after (ops ++ [op]) = (Store.after ops).apply op := by
  rw [Store.after, List.foldl_append]
  rfl

theorem undisturbed_append (s : Store α β) (ops ops' : List (Op α β)) :
    Undisturbed s (ops ++ ops') ↔ Undisturbed s ops ∧ Undisturbed (ops.foldl Store.apply s) ops' := by
  induction ops generalizing s with
  | nil => simp [Undisturbed]
  | cons op ops ih => simp [Undisturbed, ih, and_assoc]

theorem tracks_after {ops : List (Op α β)} (h : Undisturbed .new ops) :
    (Store.after ops).Tracks ops := by
  induction ops using List.reverseRecOn with
  | nil => exact tracks_new
  | append_singleton ops op ih =>
      rw [undisturbed_append] at h
      rw [after_snoc]
      exact (ih h.1).apply h.2.1

theorem settled_purge {s : Store α β} {ops : List (Op α β)} (h : s.Tracks ops) :
    s.purgeStaleItems.1.Settled ops := by
  intro kind name
  rw [(s.purge_effect name kind).1]
  exact (h kind name).1

/-- An update of a proxy whose name is pending shows at the next purge: the service stays
that was deleted, or the proxy goes that was updated. -/
theorem settled_purge_iff {s : Store α β} {ops : List (Op α β)} (h : s.Tracks ops) (op : Op α β) :
    ((s.apply op).purgeStaleItems.1.Settled (ops ++ [op])) ↔ op.Undisturbing s := by
  constructor
  · intro hsettled
    cases op with
    | updateProxy proxy data now =>
        intro kind hpending
        have hname := hsettled kind proxy
        rw [wanted_snoc, (Store.purge_effect _ proxy kind).1, Store.apply,
          (s.updateProxy_effect proxy proxy kind data now).1,
          (s.updateProxy_effect proxy proxy kind data now).2] at hname
        obtain ⟨hlive, hhas⟩ := h kind proxy
        cases kind with
        | service =>
            rw [if_neg (by simp [Op.target]), ← hlive] at hname
            simp [hhas hpending, hpending] at hname
        | proxy =>
            rw [if_pos (by simp [Op.target])] at hname
            simp [Op.target, hpending] at hname
    | updateService service data now => trivial
    | deleteService service => trivial
    | deleteProxy proxy => trivial
    | purge => trivial
  · exact fun hop => settled_purge (h.apply hop)

/-- Deferred deletion. In a run in which no proxy is updated while its name is pending,
every purge leaves the names whose last operation was an update, and what it leaves of
one kind depends on the operations of that kind only. The first operation that is not so
shows at a purge behind it. -/
theorem purge_settles (ops : List (Op α β)) (h : Undisturbed .new ops) :
    (∀ before after, ops = before ++ .purge :: after →
      (Store.after (before ++ [.purge])).Settled before) ∧
    (∀ op, (Store.after (ops ++ [op] ++ [.purge])).Settled (ops ++ [op]) ↔
      op.Undisturbing (Store.after ops)) ∧
    ∀ (kind : Kind) (ops' : List (Op α β)), Undisturbed .new ops' →
      (∀ name, changes kind name ops = changes kind name ops') →
      ∀ name, (Store.after (ops ++ [.purge])).Has name kind ↔
        (Store.after (ops' ++ [.purge])).Has name kind := by
  have hpurge : ∀ ops : List (Op α β), Undisturbed .new ops →
      (Store.after (ops ++ [.purge])).Settled ops := by
    intro ops h
    rw [after_snoc]
    exact settled_purge (tracks_after h)
  refine ⟨?_, ?_, ?_⟩
  · rintro before after rfl
    exact hpurge before ((undisturbed_append _ _ _).mp h).1
  · intro op
    rw [after_snoc, after_snoc]
    exact settled_purge_iff (tracks_after h) op
  · intro kind ops' h' hchanges name
    rw [hpurge ops h kind name, hpurge ops' h' kind name, Wanted, Wanted, hchanges name]

/-- A proxy that is deleted, purged and put in again beside a service of the same name. -/
theorem purge_settles_sample :
    (Store.after [Op.updateService (bytes "a") () 0, .updateProxy (bytes "a") () 1,
      .deleteProxy (bytes "a"), .purge]).Settled
        [Op.updateService (bytes "a") () 0, .updateProxy (bytes "a") () 1, .deleteProxy (bytes "a")] := by
  refine (purge_settles (α := Unit) (β := Unit)
    [.updateService (bytes "a") () 0, .updateProxy (bytes "a") () 1, .deleteProxy (bytes "a"), .purge]
    ?_).1 [.updateService (bytes "a") () 0, .updateProxy (bytes "a") () 1, .deleteProxy (bytes "a")]
      [] rfl
  refine ⟨trivial, ?_, trivial, trivial, trivial⟩
  intro kind
  cases kind <;> simp [Store.Deferred, Store.apply, Store.updateServiceWrapper, Store.new]

/-- A proxy that is deleted and updated is purged; a service that is deleted stays if a
proxy of its name is updated. -/
theorem not_settled_updateProxy :
    ¬(Store.after [Op.updateProxy (bytes "a") () 0, .deleteProxy (bytes "a"),
      .updateProxy (bytes "a") () 1, .purge] : Store Unit Unit).Settled
        [.updateProxy (bytes "a") () 0, .deleteProxy (bytes "a"), .updateProxy (bytes "a") () 1] ∧
    ¬(Store.after [Op.updateService (bytes "a") () 0, .deleteService (bytes "a"),
      .updateProxy (bytes "a") () 1, .purge] : Store Unit Unit).Settled
        [.updateService (bytes "a") () 0, .deleteService (bytes "a"),
          .updateProxy (bytes "a") () 1] := by
  constructor
  · intro h
    exact absurd ((h .proxy (bytes "a")).mpr (by decide)) (by decide)
  · intro h
    exact absurd ((h .service (bytes "a")).mp (by decide)) (by decide)

end Higress.Registry
