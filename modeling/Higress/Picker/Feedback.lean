import Mathlib.Algebra.Order.Group.Int
import Mathlib.Data.List.AList
import Mathlib.Data.List.Count
import Mathlib.Data.List.Induction
import Higress.Lib.GoString

/-!
The feedback of the endpoint picker (`scheduling/feedback.go`). `Begin` counts a
request at its endpoint and returns a lease, `Complete` settles the lease, and
`Cleanup` drops the endpoints that are no longer active.

The methods of `time.Time` are parameters: a reading of the monotonic clock makes
them differ from those of wall times, and nothing below depends on them.
-/

namespace Higress.Picker.Feedback

open Lib

/-- The methods of `time.Time` that `Complete` calls; a `time.Duration` is an
`int64`. -/
structure Clock (T : Type) where
  isZero : T → Bool
  before : T → T → Bool
  sub : T → T → Int64

/-- `EndpointFeedback`. -/
structure EndpointFeedback where
  inflight : ℤ
  failureEWMA : Float
  ttft : Int64
  latency : Int64

/-- `FeedbackStore`. -/
structure FeedbackStore where
  alpha : Float
  endpoints : AList fun _ : GoString => EndpointFeedback

/-- `FeedbackLease`; all leases of a run are of one store. -/
structure FeedbackLease (T : Type) where
  address : GoString
  startedAt : T
  completed : Bool

/-- A store and the leases that it has given out, in their order. A lease is
never forgotten: its holder may complete it at any later time. -/
structure World (T : Type) where
  store : FeedbackStore
  leases : List (FeedbackLease T)

variable {T : Type}

/-! ### Operations -/

namespace FeedbackStore

/-- The part of `Begin` on the store. -/
def begin (store : FeedbackStore) (address : GoString) : FeedbackStore :=
  let state := (store.endpoints.lookup address).getD ⟨0, 0, 0, 0⟩
  { store with
    endpoints := store.endpoints.insert address { state with inflight := state.inflight + 1 } }

/-- The changes of `Complete` to the entry of the lease. -/
def settle (clock : Clock T) (alpha : Float) (lease : FeedbackLease T) (now firstByte : T)
    (failed : Bool) (state : EndpointFeedback) : EndpointFeedback where
  inflight := if 0 < state.inflight then state.inflight - 1 else state.inflight
  ttft :=
    if !clock.isZero firstByte && !clock.before firstByte lease.startedAt then
      clock.sub firstByte lease.startedAt
    else state.ttft
  latency :=
    if !clock.before now lease.startedAt then clock.sub now lease.startedAt else state.latency
  failureEWMA := alpha * (if failed then 1 else 0) + (1 - alpha) * state.failureEWMA

/-- The part of `Complete` on the store, for a lease that is open. -/
def complete (clock : Clock T) (store : FeedbackStore) (lease : FeedbackLease T)
    (now firstByte : T) (failed : Bool) : FeedbackStore :=
  match store.endpoints.lookup lease.address with
  | none => store
  | some state =>
      { store with
        endpoints := store.endpoints.insert lease.address
          (settle clock store.alpha lease now firstByte failed state) }

/-- The test and the deletion of `Cleanup` for one address. -/
def cleanupOne (active : List GoString) (store : FeedbackStore) (address : GoString) :
    FeedbackStore :=
  match store.endpoints.lookup address with
  | none => store
  | some state =>
      if address ∉ active ∧ state.inflight = 0 then
        { store with endpoints := store.endpoints.erase address }
      else store

/-- `Cleanup`. -/
def cleanup (store : FeedbackStore) (active : List GoString) : FeedbackStore :=
  store.endpoints.keys.foldl (cleanupOne active) store

/-- The in-flight count that `Signals` reports. -/
def inflight (store : FeedbackStore) (address : GoString) : ℤ :=
  match store.endpoints.lookup address with
  | none => 0
  | some state => state.inflight

end FeedbackStore

namespace World

/-- `Begin`. -/
def begin (world : World T) (address : GoString) (now : T) : World T :=
  ⟨world.store.begin address, world.leases ++ [⟨address, now, false⟩]⟩

/-- `Complete` on the lease with the given number. -/
def complete (clock : Clock T) (world : World T) (lease : ℕ) (now firstByte : T)
    (failed : Bool) : Bool × World T :=
  match world.leases[lease]? with
  | none => (false, world)
  | some l =>
      if l.completed then (false, world)
      else (true, ⟨world.store.complete clock l now firstByte failed,
        world.leases.set lease { l with completed := true }⟩)

/-- `Cleanup`. -/
def cleanup (world : World T) (active : List GoString) : World T :=
  { world with store := world.store.cleanup active }

/-- The calls on a store; each holds its lock to the end. -/
inductive Call (T : Type)
  | begin (address : GoString) (now : T)
  | complete (lease : ℕ) (now firstByte : T) (failed : Bool)
  | cleanup (active : List GoString)

def step (clock : Clock T) (world : World T) : Call T → World T
  | .begin address now => world.begin address now
  | .complete lease now firstByte failed => (world.complete clock lease now firstByte failed).2
  | .cleanup active => world.cleanup active

def run (clock : Clock T) (world : World T) (calls : List (Call T)) : World T :=
  calls.foldl (step clock) world

/-- The lease that a call settles. -/
def settles (clock : Clock T) (world : World T) : Call T → Option ℕ
  | .complete lease now firstByte failed =>
      if (world.complete clock lease now firstByte failed).1 then some lease else none
  | _ => none

/-- The leases that are settled in a run, in the order of their `Complete`. -/
def settled (clock : Clock T) (world : World T) : List (Call T) → List ℕ
  | [] => []
  | call :: calls =>
      (settles clock world call).toList ++ settled clock (world.step clock call) calls

/-- The leases that were begun for an address and not yet completed. -/
def outstanding (world : World T) (address : GoString) : ℕ :=
  world.leases.countP fun lease => lease.address == address && !lease.completed

end World

/-! ### The in-flight count of one address -/

namespace FeedbackStore

variable {clock : Clock T} {store : FeedbackStore} {lease : FeedbackLease T}

theorem inflight_begin (store : FeedbackStore) (address address' : GoString) :
    (store.begin address).inflight address' =
      store.inflight address' + if address = address' then 1 else 0 := by
  by_cases h : address = address'
  · subst h
    simp only [begin, inflight, AList.lookup_insert]
    cases store.endpoints.lookup address <;> simp
  · simp [begin, inflight, AList.lookup_insert_ne (Ne.symm h), h]

/-- `Complete` counts down when there is something to count. -/
theorem inflight_complete {now firstByte : T} {failed : Bool}
    (hpos : 0 < store.inflight lease.address) (address : GoString) :
    (store.complete clock lease now firstByte failed).inflight address =
      store.inflight address - if lease.address = address then 1 else 0 := by
  unfold complete
  cases hlookup : store.endpoints.lookup lease.address with
  | none => simp [inflight, hlookup] at hpos
  | some state =>
      have hstate : 0 < state.inflight := by simpa [inflight, hlookup] using hpos
      by_cases h : lease.address = address
      · subst h
        simp [inflight, hlookup, settle, hstate]
      · simp [inflight, AList.lookup_insert_ne (Ne.symm h), h]

/-- `Cleanup` only removes entries without requests in flight. -/
theorem inflight_cleanupOne (active : List GoString) (store : FeedbackStore)
    (name address : GoString) :
    (store.cleanupOne active name).inflight address = store.inflight address := by
  unfold cleanupOne
  cases hlookup : store.endpoints.lookup name with
  | none => rfl
  | some state =>
      by_cases hdrop : name ∉ active ∧ state.inflight = 0
      · by_cases h : address = name
        · subst h
          simp [inflight, hlookup, hdrop]
        · simp [inflight, hdrop, AList.lookup_erase_ne h]
      · simp only [hdrop, if_false]

theorem inflight_cleanup (store : FeedbackStore) (active : List GoString) (address : GoString) :
    (store.cleanup active).inflight address = store.inflight address := by
  rw [cleanup]
  generalize store.endpoints.keys = names
  induction names generalizing store with
  | nil => rfl
  | cons name names ih => rw [List.foldl_cons, ih, inflight_cleanupOne]

end FeedbackStore

/-! ### Runs -/

namespace World

variable {clock : Clock T} {world : World T} {lease : ℕ} {l : FeedbackLease T}

/-- The count of every address is the number of its open leases. -/
def Balanced (world : World T) : Prop :=
  ∀ address, world.store.inflight address = world.outstanding address

theorem outstanding_pos (hl : world.leases[lease]? = some l) (hopen : l.completed = false) :
    0 < world.outstanding l.address := by
  rw [outstanding, List.countP_pos_iff]
  exact ⟨l, List.mem_of_getElem? hl, by simp [hopen]⟩

theorem Balanced.inflight_pos (h : world.Balanced) (hl : world.leases[lease]? = some l)
    (hopen : l.completed = false) : 0 < world.store.inflight l.address := by
  rw [h]
  exact_mod_cast outstanding_pos hl hopen

theorem Balanced.complete (h : world.Balanced) {now firstByte : T} {failed : Bool} :
    (world.complete clock lease now firstByte failed).2.Balanced := by
  intro address
  unfold World.complete
  cases hl : world.leases[lease]? with
  | none => exact h address
  | some l =>
      by_cases hdone : l.completed
      · simpa [hdone] using h address
      · have hopen : l.completed = false := by simpa using hdone
        have hcount := outstanding_pos hl hopen
        obtain ⟨hlt, hget⟩ := List.getElem?_eq_some_iff.mp hl
        have hpos := h.inflight_pos hl hopen
        simp only [hopen, Bool.false_eq_true, if_false, outstanding]
        rw [FeedbackStore.inflight_complete hpos, h, List.countP_set hlt, hget]
        by_cases haddr : l.address = address
        · subst haddr
          rw [outstanding] at hcount ⊢
          simp [hopen]
          omega
        · simp [haddr, outstanding]

theorem Balanced.step (h : world.Balanced) (call : Call T) : (world.step clock call).Balanced := by
  cases call with
  | «begin» address now =>
      intro address'
      simp only [World.step, World.begin, FeedbackStore.inflight_begin, h address', outstanding,
        List.countP_append]
      by_cases haddr : address = address' <;> simp [haddr]
  | complete lease now firstByte failed => exact h.complete
  | cleanup active =>
      intro address
      rw [World.step, World.cleanup, FeedbackStore.inflight_cleanup]
      exact h address

end World

end Higress.Picker.Feedback
