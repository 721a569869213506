import Mathlib
import Higress.Lib.GoString
import Higress.Lib.Recency
import Higress.Lib.Run

/-!
The index of prefix blocks of the endpoint picker (`prefixcache/index.go`). For
each endpoint it keeps the blocks of the requests that were sent there, with a
map from hashes to elements of a recency list, and drops the least recent blocks
when their cost passes the capacity of the endpoint.

Go's `int` is `Int64`, sums wrap. The elements of the recency list are numbers in
the order of their allocation, and `value` is the memory they point into.
-/

namespace Higress.Picker

open Lib

/-- `Block`, the part of a prefix that is hashed as one. -/
structure Block where
  hash : UInt64
  estimatedTokens : Int64
  deriving DecidableEq, Repr

def defaultCapacity : Int64 := 31250

def defaultBlockSize : Int64 := 16

/-- `cacheEntry`. -/
structure CacheEntry where
  hash : UInt64
  cost : Int64
  deriving DecidableEq, Repr

/-- `endpointCache`. The list `order` has its front first. -/
structure EndpointCache where
  capacity : Int64
  usedCost : Int64
  order : List ℕ
  entries : AList fun _ : UInt64 => ℕ
  value : ℕ → CacheEntry
  allocated : ℕ

/-- `Index`. -/
structure Index where
  defaultCapacity : Int64
  endpoints : AList fun _ : GoString => EndpointCache

/-! ### Operations -/

/-- `NewIndex`. -/
def newIndex (capacity : Int64) : Index :=
  ⟨if capacity ≤ 0 then Picker.defaultCapacity else capacity, ∅⟩

namespace EndpointCache

/-- The blocks of a cache, the most recent one first. -/
def blocks (cache : EndpointCache) : List CacheEntry := cache.order.map cache.value

/-- The hashes of the blocks, in the same order. -/
def hashes (cache : EndpointCache) : List UInt64 := cache.blocks.map CacheEntry.hash

/-- The cache that `endpoint` makes for a new name. -/
def new (capacity : Int64) : EndpointCache :=
  ⟨capacity, 0, [], ∅, fun _ => ⟨0, 0⟩, 0⟩

/-- One round of the loop of `evict`; there is no round on an empty list, whose
`Back` is nil. -/
def evictOldest (cache : EndpointCache) : Option EndpointCache :=
  cache.order.getLast?.map fun oldest =>
    { cache with
      usedCost := cache.usedCost - (cache.value oldest).cost
      entries := cache.entries.erase (cache.value oldest).hash
      order := cache.order.erase oldest }

theorem length_evictOldest {cache cache' : EndpointCache} (h : cache.evictOldest = some cache') :
    cache'.order.length < cache.order.length := by
  obtain ⟨oldest, hlast, rfl⟩ := Option.map_eq_some_iff.mp h
  have hmem := List.mem_of_getLast? hlast
  have hpos := List.length_pos_of_mem hmem
  simp only [List.length_erase_of_mem hmem]
  omega

/-- `evict`; a nil dereference is `none`. -/
def evict (cache : EndpointCache) : Option EndpointCache :=
  if cache.usedCost > cache.capacity then
    match _h : cache.evictOldest with
    | none => none
    | some cache' => evict cache'
  else some cache
termination_by cache.order.length
decreasing_by exact length_evictOldest _h

/-- The costs that `Record` gives a block. -/
def blockCost (block : Block) (actualBlockSize : Int64) : Int64 :=
  let cost := block.estimatedTokens / actualBlockSize
  if block.estimatedTokens % actualBlockSize ≠ 0 then cost + 1 else cost

/-- The body of the loop of `Record` before `evict`. -/
def touch (cache : EndpointCache) (hash : UInt64) (cost : Int64) : EndpointCache :=
  match cache.entries.lookup hash with
  | some element =>
      { cache with
        usedCost := cache.usedCost + (cost - (cache.value element).cost)
        value := Function.update cache.value element ⟨hash, cost⟩
        order :=
          if element ∈ cache.order then element :: cache.order.erase element
          else cache.order }
  | none =>
      { cache with
        order := cache.allocated :: cache.order
        value := Function.update cache.value cache.allocated ⟨hash, cost⟩
        entries := cache.entries.insert hash cache.allocated
        usedCost := cache.usedCost + cost
        allocated := cache.allocated + 1 }

def recordBlock (actualBlockSize : Int64) (cache : EndpointCache) (block : Block) :
    Option EndpointCache :=
  (cache.touch block.hash (blockCost block actualBlockSize)).evict

/-- One chain of `Record`, from its last block to its first. -/
def recordChain (actualBlockSize : Int64) (cache : EndpointCache) (chain : List Block) :
    Option EndpointCache :=
  chain.reverse.foldlM (recordBlock actualBlockSize) cache

def recordChains (actualBlockSize : Int64) (cache : EndpointCache) (chains : List (List Block)) :
    Option EndpointCache :=
  chains.foldlM (recordChain actualBlockSize) cache

/-- The blocks of a chain up to the first one that is not in the cache. -/
def leadingHits (cache : EndpointCache) (chain : List Block) : List Block :=
  chain.takeWhile fun block => (cache.entries.lookup block.hash).isSome

end EndpointCache

namespace Index

/-- `endpoint`; its callers put the cache back into the map. -/
def endpoint (index : Index) (name : GoString) : EndpointCache :=
  (index.endpoints.lookup name).getD (.new index.defaultCapacity)

/-- The index after the cache of an endpoint has changed. -/
def setEndpoint (index : Index) (name : GoString) (cache : EndpointCache) : Index :=
  { index with endpoints := index.endpoints.insert name cache }

/-- `SetCapacity`. -/
def setCapacity (index : Index) (name : GoString) (capacity : Int64) : Option Index :=
  let cache := index.endpoint name
  let capacity := if capacity ≤ 0 then index.defaultCapacity else capacity
  ({ cache with capacity := capacity }.evict).map (index.setEndpoint name)

/-- `Record`. -/
def record (index : Index) (name : GoString) (chains : List (List Block))
    (actualBlockSize : Int64) : Option Index :=
  let actualBlockSize := if actualBlockSize ≤ 0 then defaultBlockSize else actualBlockSize
  ((index.endpoint name).recordChains actualBlockSize chains).map (index.setEndpoint name)

/-- `Delete`. -/
def delete (index : Index) (name : GoString) : Index :=
  { index with endpoints := index.endpoints.erase name }

/-- `Cleanup`. -/
def cleanup (index : Index) (active : List GoString) : Index :=
  index.endpoints.keys.foldl
    (fun index name => if name ∈ active then index else index.delete name) index

/-- What `Score` counts in a run over the chains; its result is a function of the
two numbers of tokens. -/
structure Tokens where
  matched : Int64
  total : Int64
  deriving DecidableEq, Repr

def sumTokens (blocks : List Block) : Int64 := (blocks.map Block.estimatedTokens).sum

/-- `Score`, with the index it leaves. A name without a cache has no hits. -/
def score (index : Index) (name : GoString) (chains : List (List Block)) : Tokens × Index :=
  let hits chain := match index.endpoints.lookup name with
    | none => []
    | some cache => cache.leadingHits chain
  (chains.foldl (fun tokens chain =>
      ⟨tokens.matched + sumTokens (hits chain), tokens.total + sumTokens chain⟩) ⟨0, 0⟩,
    index)

/-- The calls of an index. Each holds its lock to the end, so that the calls of
several goroutines come one after another. -/
inductive Call
  | setCapacity (name : GoString) (capacity : Int64)
  | record (name : GoString) (chains : List (List Block)) (actualBlockSize : Int64)
  | delete (name : GoString)
  | cleanup (active : List GoString)
  | score (name : GoString) (chains : List (List Block))

def step (index : Index) : Call → Option Index
  | .setCapacity name capacity => index.setCapacity name capacity
  | .record name chains size => index.record name chains size
  | .delete name => some (index.delete name)
  | .cleanup active => some (index.cleanup active)
  | .score name chains => some (index.score name chains).2

def run (index : Index) (calls : List Call) : Option Index := calls.foldlM step index

end Index

/-! ### The invariant of a cache -/

namespace EndpointCache

/-- The map and the recency list hold the same elements, and each block is under
its own hash. -/
structure Linked (cache : EndpointCache) : Prop where
  nodup : cache.order.Nodup
  lt_allocated : ∀ element ∈ cache.order, element < cache.allocated
  lookup_iff : ∀ hash element, cache.entries.lookup hash = some element ↔
    element ∈ cache.order ∧ (cache.value element).hash = hash

/-- The sum of the costs of the blocks, as Go adds them. -/
def sumCosts (blocks : List CacheEntry) : Int64 := (blocks.map CacheEntry.cost).sum

/-- The invariant inside `Record`, where the capacity may be passed. -/
structure Accounted (cache : EndpointCache) : Prop extends Linked cache where
  capacity_pos : 0 < cache.capacity
  usedCost_eq : cache.usedCost = sumCosts cache.blocks

/-- The invariant between two calls. -/
structure Sound (cache : EndpointCache) : Prop extends Accounted cache where
  usedCost_le : cache.usedCost ≤ cache.capacity

variable {cache cache' : EndpointCache} {hash : UInt64} {cost : Int64} {element : ℕ}

theorem Linked.hash_inj (h : cache.Linked) {e₁ e₂ : ℕ} (h₁ : e₁ ∈ cache.order)
    (h₂ : e₂ ∈ cache.order) (heq : (cache.value e₁).hash = (cache.value e₂).hash) : e₁ = e₂ := by
  have hl₁ := (h.lookup_iff _ e₁).mpr ⟨h₁, rfl⟩
  have hl₂ := (h.lookup_iff _ e₂).mpr ⟨h₂, heq.symm⟩
  exact Option.some.inj (hl₁.symm.trans hl₂)

theorem Linked.nodup_hashes (h : cache.Linked) : cache.hashes.Nodup := by
  rw [hashes, blocks, List.map_map]
  apply List.Nodup.map_on _ h.nodup
  intro e₁ h₁ e₂ h₂ heq
  exact h.hash_inj h₁ h₂ heq

/-- A hash is in the map when a block of the list has it. -/
theorem Linked.isSome_lookup_iff (h : cache.Linked) :
    (cache.entries.lookup hash).isSome ↔ hash ∈ cache.hashes := by
  rw [hashes, blocks, List.map_map, List.mem_map, Option.isSome_iff_exists]
  exact exists_congr fun element => h.lookup_iff hash element

theorem sumCosts_erase {value : ℕ → CacheEntry} {order : List ℕ} (h : element ∈ order) :
    sumCosts (order.map value) =
      (value element).cost + sumCosts ((order.erase element).map value) := by
  induction order with
  | nil => simp at h
  | cons e order ih =>
      by_cases heq : e = element
      · simp [heq, sumCosts]
      · have hmem : element ∈ order := (List.mem_cons.mp h).resolve_left (Ne.symm heq)
        have hne : (e == element) = false := by simpa using heq
        simp only [sumCosts, List.map_cons, List.sum_cons, List.erase_cons, hne] at ih ⊢
        rw [ih hmem]
        simp only [Bool.false_eq_true, if_false, List.map_cons, List.sum_cons]
        rw [← Int64.add_assoc, Int64.add_comm _ (value element).cost, Int64.add_assoc]

theorem map_update_of_notMem {value : ℕ → CacheEntry} {order : List ℕ} {entry : CacheEntry}
    (h : element ∉ order) : order.map (Function.update value element entry) = order.map value := by
  apply List.map_congr_left
  intro e he
  have hne : e ≠ element := fun heq => h (heq ▸ he)
  exact Function.update_of_ne hne _ _

/-- The other blocks of the list, in their order. -/
theorem Linked.map_erase (h : cache.Linked) (hlookup : cache.entries.lookup hash = some element) :
    (cache.order.erase element).map cache.value = cache.blocks.filter (·.hash ≠ hash) := by
  obtain ⟨hmem, hhash⟩ := (h.lookup_iff hash element).mp hlookup
  rw [h.nodup.erase_eq_filter, blocks, List.filter_map]
  congr 1
  apply List.filter_congr
  intro e he
  have hiff : e = element ↔ (cache.value e).hash = hash := by
    constructor
    · rintro rfl
      exact hhash
    · intro heq
      exact h.hash_inj he hmem (heq.trans hhash.symm)
  rw [Bool.eq_iff_iff]
  simp [hiff]

theorem Linked.filter_blocks (h : cache.Linked) (hlookup : cache.entries.lookup hash = none) :
    cache.blocks.filter (·.hash ≠ hash) = cache.blocks := by
  apply List.filter_eq_self.mpr
  intro entry hentry
  have hnone : ¬ (cache.entries.lookup hash).isSome := by simp [hlookup]
  rw [h.isSome_lookup_iff] at hnone
  have hne : entry.hash ≠ hash := fun heq => hnone (heq ▸ List.mem_map_of_mem hentry)
  simpa using hne

theorem Linked.allocated_notMem (h : cache.Linked) : cache.allocated ∉ cache.order :=
  fun hmem => absurd (h.lt_allocated _ hmem) (lt_irrefl _)

/-! ### Touching a block -/

theorem Linked.blocks_touch (h : cache.Linked) :
    (cache.touch hash cost).blocks = ⟨hash, cost⟩ :: cache.blocks.filter (·.hash ≠ hash) := by
  unfold touch
  cases hlookup : cache.entries.lookup hash with
  | some element =>
      have hmem := ((h.lookup_iff hash element).mp hlookup).1
      have hnot : element ∉ cache.order.erase element := h.nodup.not_mem_erase
      rw [← h.map_erase hlookup]
      simp [blocks, hmem, map_update_of_notMem hnot]
  | none =>
      rw [h.filter_blocks hlookup]
      simp [blocks, map_update_of_notMem h.allocated_notMem]

theorem Linked.usedCost_touch (h : cache.Linked) (hused : cache.usedCost = sumCosts cache.blocks) :
    (cache.touch hash cost).usedCost = sumCosts (cache.touch hash cost).blocks := by
  rw [h.blocks_touch]
  unfold touch
  cases hlookup : cache.entries.lookup hash with
  | some element =>
      have hmem := ((h.lookup_iff hash element).mp hlookup).1
      have hsum := @sumCosts_erase element cache.value _ hmem
      rw [h.map_erase hlookup] at hsum
      simp only [hused, blocks] at hsum ⊢
      rw [hsum]
      simp only [sumCosts, List.map_cons, List.sum_cons]
      grind
  | none =>
      rw [h.filter_blocks hlookup]
      simp only [hused, sumCosts, List.map_cons, List.sum_cons]
      exact Int64.add_comm _ _

theorem Linked.touch (h : cache.Linked) : (cache.touch hash cost).Linked := by
  unfold EndpointCache.touch
  cases hlookup : cache.entries.lookup hash with
  | some element =>
      obtain ⟨hmem, hhash⟩ := (h.lookup_iff hash element).mp hlookup
      have hperm := List.perm_cons_erase hmem
      simp only [hmem, if_true]
      refine ⟨hperm.nodup_iff.mp h.nodup, fun e he => ?_, fun hash' e => ?_⟩
      · exact h.lt_allocated e (hperm.mem_iff.mpr he)
      · rw [← hperm.mem_iff, h.lookup_iff]
        by_cases heq : e = element
        · subst heq
          simp [hhash]
        · simp [heq]
  | none =>
      refine ⟨List.nodup_cons.mpr ⟨h.allocated_notMem, h.nodup⟩, fun e he => ?_, fun hash' e => ?_⟩
      · simp only [List.mem_cons] at he
        rcases he with rfl | he
        · exact Nat.lt_succ_self _
        · exact Nat.lt_succ_of_lt (h.lt_allocated e he)
      · by_cases heq : e = cache.allocated
        · subst heq
          by_cases hhash : hash' = hash
          · subst hhash
            simp
          · rw [AList.lookup_insert_ne hhash, h.lookup_iff]
            simp [h.allocated_notMem, Ne.symm hhash]
        · by_cases hhash : hash' = hash
          · subst hhash
            have hnone : e ∈ cache.order → (cache.value e).hash ≠ hash' := by
              intro he hh
              have := (h.lookup_iff hash' e).mpr ⟨he, hh⟩
              simp [hlookup] at this
            simpa [heq, Ne.symm heq] using hnone
          · rw [AList.lookup_insert_ne hhash, h.lookup_iff]
            simp [heq]

theorem Accounted.touch (h : cache.Accounted) : (cache.touch hash cost).Accounted := by
  refine ⟨h.toLinked.touch, ?_, h.toLinked.usedCost_touch h.usedCost_eq⟩
  have hcap : (cache.touch hash cost).capacity = cache.capacity := by
    unfold EndpointCache.touch
    cases cache.entries.lookup hash <;> rfl
  exact hcap ▸ h.capacity_pos

/-! ### Eviction -/

theorem Linked.evictOldest (h : cache.Linked) (hevict : cache.evictOldest = some cache') :
    cache'.Linked := by
  obtain ⟨oldest, hlast, rfl⟩ := Option.map_eq_some_iff.mp hevict
  have hmem := List.mem_of_getLast? hlast
  refine ⟨h.nodup.erase _, fun e he => h.lt_allocated e (List.mem_of_mem_erase he), ?_⟩
  intro hash e
  rw [h.nodup.mem_erase_iff]
  by_cases hhash : hash = (cache.value oldest).hash
  · subst hhash
    rw [AList.lookup_erase]
    have honly : e ∈ cache.order → (cache.value e).hash = (cache.value oldest).hash → e = oldest :=
      fun he heq => h.hash_inj he hmem heq
    simp only [reduceCtorEq, false_iff, not_and, and_imp]
    exact fun hne he heq => hne (honly he heq)
  · rw [AList.lookup_erase_ne hhash, h.lookup_iff]
    constructor
    · rintro ⟨he, rfl⟩
      exact ⟨⟨fun heq => hhash (heq ▸ rfl), he⟩, rfl⟩
    · rintro ⟨⟨-, he⟩, heq⟩
      exact ⟨he, heq⟩

/-- A round of `evict` takes away the last block. -/
theorem Linked.blocks_evictOldest (h : cache.Linked) (hevict : cache.evictOldest = some cache') :
    ∃ oldest, cache.blocks = cache'.blocks ++ [oldest] := by
  obtain ⟨oldest, hlast, rfl⟩ := Option.map_eq_some_iff.mp hevict
  obtain ⟨order, horder⟩ := List.getLast?_eq_some_iff.mp hlast
  refine ⟨cache.value oldest, ?_⟩
  have hnot : oldest ∉ order := by
    have hnd := h.nodup
    rw [horder] at hnd
    exact fun hmem => List.disjoint_of_nodup_append hnd hmem (List.mem_singleton_self _)
  simp [blocks, horder, List.erase_append_right _ hnot]

theorem Accounted.evictOldest (h : cache.Accounted) (hevict : cache.evictOldest = some cache') :
    cache'.Accounted := by
  have hlinked := h.toLinked.evictOldest hevict
  obtain ⟨oldest, hlast, rfl⟩ := Option.map_eq_some_iff.mp hevict
  refine ⟨hlinked, h.capacity_pos, ?_⟩
  have hsum := @sumCosts_erase oldest cache.value _ (List.mem_of_getLast? hlast)
  have hused := h.usedCost_eq
  simp only [blocks] at hused ⊢
  rw [hused, hsum]
  grind

/-- The loop of `evict` ends before the list is empty: without blocks the used
cost is zero. -/
theorem Accounted.evict (h : cache.Accounted) :
    ∃ cache', cache.evict = some cache' ∧ cache'.Sound ∧ cache'.capacity = cache.capacity ∧
      cache'.blocks <+: cache.blocks := by
  induction hn : cache.order.length using Nat.strong_induction_on generalizing cache with
  | _ n ih =>
      rw [EndpointCache.evict]
      by_cases hover : cache.usedCost > cache.capacity
      · rw [if_pos hover]
        have hne : cache.order ≠ [] := by
          intro hnil
          have hzero : cache.usedCost = 0 := by simp [h.usedCost_eq, blocks, hnil, sumCosts]
          rw [hzero] at hover
          exact Int64.lt_irrefl (Int64.lt_trans h.capacity_pos hover)
        obtain ⟨cache₁, hevict⟩ : ∃ cache₁, cache.evictOldest = some cache₁ := by
          rw [EndpointCache.evictOldest, List.getLast?_eq_some_getLast hne]
          exact ⟨_, rfl⟩
        have hlt := length_evictOldest hevict
        obtain ⟨cache', hcache', hsound, hcap, hblocks⟩ :=
          ih _ (hn ▸ hlt) (h.evictOldest hevict) rfl
        obtain ⟨oldest, hold⟩ := h.toLinked.blocks_evictOldest hevict
        have hcap₁ : cache₁.capacity = cache.capacity := by
          obtain ⟨-, -, rfl⟩ := Option.map_eq_some_iff.mp hevict
          rfl
        refine ⟨cache', ?_, hsound, hcap.trans hcap₁, ?_⟩
        · split
          · rename_i hnone
            simp [hevict] at hnone
          · rename_i cache₂ hsome
            obtain rfl : cache₁ = cache₂ := Option.some.inj (hevict.symm.trans hsome)
            exact hcache'
        · rw [hold]
          exact hblocks.trans (List.prefix_append _ _)
      · rw [if_neg hover]
        exact ⟨cache, rfl, ⟨h, Int64.not_lt.mp hover⟩, rfl, List.prefix_rfl⟩

/-! ### Recording -/

theorem Sound.recordBlock (h : cache.Sound) (size : Int64) (block : Block) :
    ∃ cache', cache.recordBlock size block = some cache' ∧ cache'.Sound ∧
      cache'.hashes <+: block.hash :: cache.hashes.filter (· ≠ block.hash) := by
  obtain ⟨cache', hcache', hsound, -, hblocks⟩ :=
    (@Accounted.touch cache block.hash (blockCost block size) h.toAccounted).evict
  refine ⟨cache', hcache', hsound, ?_⟩
  have hmap := hblocks.map CacheEntry.hash
  rw [h.toLinked.blocks_touch, List.map_cons] at hmap
  rw [hashes, hashes, List.filter_map]
  exact hmap

/-- What a chain leaves: its own blocks come first, and what is missing is missing
at the cold end. -/
theorem Sound.recordChain (h : cache.Sound) (size : Int64) (chain : List Block) :
    ∃ cache', cache.recordChain size chain = some cache' ∧ cache'.Sound ∧
      ((chain.map Block.hash).Nodup →
        cache'.hashes <+:
          chain.map Block.hash ++ cache.hashes.filter (· ∉ chain.map Block.hash)) := by
  induction chain with
  | nil => exact ⟨cache, rfl, h, fun _ => by simp⟩
  | cons block chain ih =>
      obtain ⟨cache₁, hcache₁, hsound₁, hheld₁⟩ := ih
      obtain ⟨cache₂, hcache₂, hsound₂, hheld₂⟩ := hsound₁.recordBlock size block
      refine ⟨cache₂, ?_, hsound₂, fun hnd => ?_⟩
      · rw [EndpointCache.recordChain, List.reverse_cons, List.foldlM_append]
        rw [EndpointCache.recordChain] at hcache₁
        simp [hcache₁, hcache₂]
      · rw [List.map_cons, List.nodup_cons] at hnd
        exact hheld₂.trans (Recency.touch_isPrefixOf (hheld₁ hnd.2) hnd.1)

theorem Sound.setCapacity (h : cache.Sound) {capacity : Int64} (hpos : 0 < capacity) :
    ∃ cache', { cache with capacity := capacity }.evict = some cache' ∧ cache'.Sound ∧
      cache'.hashes <+: cache.hashes := by
  have hacc : { cache with capacity := capacity }.Accounted :=
    ⟨⟨h.nodup, h.lt_allocated, h.lookup_iff⟩, hpos, h.usedCost_eq⟩
  obtain ⟨cache', hcache', hsound, -, hblocks⟩ := hacc.evict
  exact ⟨cache', hcache', hsound, hblocks.map _⟩

theorem sound_new {capacity : Int64} (h : 0 < capacity) : (new capacity).Sound := by
  refine ⟨⟨⟨List.nodup_nil, by simp [new], fun hash e => ?_⟩, h, rfl⟩, ?_⟩
  · simp [new]
  · exact Int64.le_of_lt h

end EndpointCache

/-! ### Runs -/

namespace Index

/-- A property of caches that `SetCapacity` and `Record` keep, for the chains
that are allowed. -/
structure CacheInvariant (Allowed : List Block → Prop) (P : EndpointCache → Prop) : Prop where
  new : ∀ capacity, 0 < capacity → P (.new capacity)
  setCapacity : ∀ cache capacity, P cache → 0 < capacity →
    ∃ cache', { cache with capacity := capacity }.evict = some cache' ∧ P cache'
  recordChain : ∀ cache size chain, P cache → Allowed chain →
    ∃ cache', cache.recordChain size chain = some cache' ∧ P cache'

/-- The chains that a call records. -/
def Call.chains : Call → List (List Block)
  | .record _ chains _ => chains
  | _ => []

/-- Every cache of the index has the property. -/
structure Every (P : EndpointCache → Prop) (index : Index) : Prop where
  defaultCapacity_pos : 0 < index.defaultCapacity
  lookup : ∀ name cache, index.endpoints.lookup name = some cache → P cache

variable {Allowed : List Block → Prop} {P : EndpointCache → Prop} {index : Index}

theorem Every.endpoint (h : index.Every P) (hP : CacheInvariant Allowed P) (name : GoString) :
    P (index.endpoint name) := by
  rw [Index.endpoint]
  cases hlookup : index.endpoints.lookup name with
  | none => exact hP.new _ h.defaultCapacity_pos
  | some cache => exact h.lookup name cache hlookup

theorem Every.setEndpoint (h : index.Every P) {cache : EndpointCache} (hcache : P cache)
    (name : GoString) : (index.setEndpoint name cache).Every P := by
  refine ⟨h.defaultCapacity_pos, fun name' cache' hlookup => ?_⟩
  by_cases hname : name' = name
  · subst hname
    rw [Index.setEndpoint, AList.lookup_insert] at hlookup
    exact Option.some.inj hlookup ▸ hcache
  · rw [Index.setEndpoint, AList.lookup_insert_ne hname] at hlookup
    exact h.lookup name' cache' hlookup

theorem Every.delete (h : index.Every P) (name : GoString) : (index.delete name).Every P := by
  refine ⟨h.defaultCapacity_pos, fun name' cache' hlookup => ?_⟩
  by_cases hname : name' = name
  · subst hname
    simp [Index.delete, AList.lookup_erase] at hlookup
  · rw [Index.delete, AList.lookup_erase_ne hname] at hlookup
    exact h.lookup name' cache' hlookup

theorem Every.cleanup (h : index.Every P) (active : List GoString) :
    (index.cleanup active).Every P := by
  rw [Index.cleanup]
  generalize index.endpoints.keys = names
  induction names generalizing index with
  | nil => exact h
  | cons name names ih =>
      rw [List.foldl_cons]
      split
      · exact ih h
      · exact ih (h.delete name)

theorem Every.step (h : index.Every P) (hP : CacheInvariant Allowed P) {call : Call}
    (hcall : ∀ chain ∈ call.chains, Allowed chain) :
    ∃ index', index.step call = some index' ∧ index'.Every P := by
  cases call with
  | setCapacity name capacity =>
      have hpos : 0 < (if capacity ≤ 0 then index.defaultCapacity else capacity) := by
        split
        · exact h.defaultCapacity_pos
        · rename_i hle
          exact Int64.not_le.mp hle
      obtain ⟨cache', hcache', hP'⟩ := hP.setCapacity _ _ (h.endpoint hP name) hpos
      refine ⟨index.setEndpoint name cache', ?_, h.setEndpoint hP' name⟩
      simp only [Index.step, Index.setCapacity]
      rw [hcache', Option.map_some]
  | record name chains size =>
      obtain ⟨cache', hcache', hP'⟩ : ∃ cache',
          (index.endpoint name).recordChains (if size ≤ 0 then defaultBlockSize else size) chains =
            some cache' ∧ P cache' :=
        Run.foldlM_of_step (fun chain hchain cache hcache =>
          hP.recordChain cache _ chain hcache (hcall chain hchain)) (h.endpoint hP name)
      refine ⟨index.setEndpoint name cache', ?_, h.setEndpoint hP' name⟩
      simp only [Index.step, Index.record]
      rw [hcache', Option.map_some]
  | delete name => exact ⟨_, rfl, h.delete name⟩
  | cleanup active => exact ⟨_, rfl, h.cleanup active⟩
  | score name chains => exact ⟨_, rfl, h⟩

theorem every_newIndex (capacity : Int64) : (newIndex capacity).Every P := by
  refine ⟨?_, fun name cache hlookup => by simp [newIndex] at hlookup⟩
  simp only [newIndex]
  split
  · decide
  · rename_i hle
    exact Int64.not_le.mp hle

/-- Every run of calls from a new index succeeds, and what `SetCapacity` and
`Record` keep holds for every endpoint. -/
theorem run_of_cacheInvariant (hP : CacheInvariant Allowed P) (capacity : Int64)
    {calls : List Call} (hcalls : ∀ call ∈ calls, ∀ chain ∈ call.chains, Allowed chain) :
    ∃ index, (newIndex capacity).run calls = some index ∧ index.Every P :=
  Run.foldlM_of_step (fun call hcall _ h => h.step hP (hcalls call hcall))
    (every_newIndex capacity)

theorem cacheInvariant_sound : CacheInvariant (fun _ => True) EndpointCache.Sound where
  new _ hpos := EndpointCache.sound_new hpos
  setCapacity _ _ h hpos := by
    obtain ⟨cache', hcache', hsound, -⟩ := h.setCapacity hpos
    exact ⟨cache', hcache', hsound⟩
  recordChain _ size chain h _ := by
    obtain ⟨cache', hcache', hsound, -⟩ := h.recordChain size chain
    exact ⟨cache', hcache', hsound⟩

end Index

theorem EndpointCache.Linked.keys_perm {cache : EndpointCache} (h : cache.Linked) :
    cache.entries.keys.Perm cache.hashes := by
  rw [List.perm_ext_iff_of_nodup cache.entries.keys_nodup h.nodup_hashes]
  intro hash
  rw [← h.isSome_lookup_iff, AList.lookup_isSome, AList.mem_keys]

/-- Go's sum is the sum of the integers, taken back into the range of `int`. -/
theorem EndpointCache.toInt_sumCosts (blocks : List CacheEntry) :
    (sumCosts blocks).toInt =
      Int.bmod (blocks.map fun entry : CacheEntry => entry.cost.toInt).sum
        18446744073709551616 := by
  induction blocks with
  | nil => rfl
  | cons entry blocks ih =>
      have hcons : sumCosts (entry :: blocks) = entry.cost + sumCosts blocks := rfl
      rw [hcons, Int64.toInt_add, ih]
      simp

/-- After every run of calls, and none of them panics: the map and the recency
list of every endpoint hold the same blocks, each once, the used cost is the sum
of their costs (the exact one while it is an `int`) and within the capacity, and
`Score` changes nothing. -/
theorem index_accounting (capacity : Int64) (calls : List Index.Call) :
    ∃ index, (newIndex capacity).run calls = some index ∧
      (∀ name cache, index.endpoints.lookup name = some cache →
        cache.hashes.Nodup ∧ cache.entries.keys.Perm cache.hashes ∧
        (∀ hash element, cache.entries.lookup hash = some element ↔
          element ∈ cache.order ∧ (cache.value element).hash = hash) ∧
        cache.usedCost = EndpointCache.sumCosts cache.blocks ∧
        (∀ total : ℤ, total = (cache.blocks.map fun entry => entry.cost.toInt).sum →
          -9223372036854775808 ≤ total → total < 9223372036854775808 →
            cache.usedCost.toInt = total) ∧
        cache.usedCost ≤ cache.capacity) ∧
      ∀ name chains, (index.score name chains).2 = index := by
  obtain ⟨index, hrun, hevery⟩ :=
    @Index.run_of_cacheInvariant _ _ Index.cacheInvariant_sound capacity calls
      (fun _ _ _ _ => trivial)
  refine ⟨index, hrun, fun name cache hlookup => ?_, fun _ _ => rfl⟩
  have h := hevery.lookup name cache hlookup
  refine ⟨h.nodup_hashes, h.keys_perm, h.lookup_iff, h.usedCost_eq, ?_, h.usedCost_le⟩
  rintro total rfl hlow hhigh
  rw [h.usedCost_eq, EndpointCache.toInt_sumCosts]
  exact Int.bmod_eq_of_le hlow hhigh

/-! ### Chains -/

/-- The invariant of a cache whose chains are paths of `pred`. -/
def EndpointCache.Kept (pred : UInt64 → Option UInt64) (cache : EndpointCache) : Prop :=
  cache.Sound ∧ Recency.PredClosed pred cache.hashes

end Higress.Picker
