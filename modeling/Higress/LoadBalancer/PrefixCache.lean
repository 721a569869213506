import Mathlib.Data.Int.Notation
import Mathlib.Data.List.Perm.Basic
import Mathlib.Data.Nat.Bitwise
import Mathlib.Logic.Function.Basic
import Higress.Lib.GoString

/-!
The affinity of prompts with a common prefix (`RedisLua` in
`ai-load-balancer/prefix_cache/lb_policy.go`). A prompt is a list of hashes, and the keys of its
prefixes are their hashes combined by exclusive or. The script follows the keys that are there as
long as their hosts are healthy, and takes the host of the last one; if there is none, it takes a
host with the least requests. It then writes the host to the keys that are left.

A script that raises an error is `none`. The keys expire later than the runs that are compared
here, and the random choice between hosts with equal counts is a parameter.
-/

namespace Higress.LoadBalancer.PrefixCache

open Lib

/-! ### Hexadecimal strings -/

/-- `hex_to_bytes`; `tonumber` of what is no number is nil, with which no byte can be
combined. -/
def hexToBytes : GoString → Option (List ℕ)
  | [] => some []
  | [a] => (hexValue a).map fun x => [x]
  | a :: b :: s =>
      (hexValue a).bind fun x => (hexValue b).bind fun y =>
        (hexToBytes s).map fun bytes => (16 * x + y) :: bytes

/-- A digit of `%02X`. -/
def hexDigit (n : ℕ) : UInt8 := if n < 10 then UInt8.ofNat (48 + n) else UInt8.ofNat (55 + n)

/-- `bytes_to_hex`. -/
def bytesToHex (bytes : List ℕ) : GoString :=
  bytes.flatMap fun b => [hexDigit (b / 16), hexDigit (b % 16)]

/-- `byte_xor`, bit by bit. -/
def byteXor (a b : ℕ) : ℕ :=
  (List.range 8).foldl (fun result i =>
    if decide (a % (2 ^ i * 2) ≥ 2 ^ i) ≠ decide (b % (2 ^ i * 2) ≥ 2 ^ i) then result + 2 ^ i
    else result) 0

/-- `hex_xor`. -/
def hexXor (a b : GoString) : Option GoString :=
  if a.length ≠ b.length then none
  else (hexToBytes a).bind fun x => (hexToBytes b).map fun y =>
    bytesToHex (List.zipWith byteXor x y)

/-! ### The script -/

/-- What the script reads and writes: the string keys, and the counts of the hosts. -/
structure Redis where
  strings : GoString → Option GoString
  counts : GoString → Option ℤ

/-- The keys of a call: the default target, which is drawn from the healthy hosts, and the healthy
hosts. An address is not empty. -/
structure Hosts where
  defaultTarget : GoString
  healthy : List GoString
  default_mem : defaultTarget ∈ healthy
  ne_nil : [] ∉ healthy

/-- The key of a prefix that is longer by one hash; the first key is the hash itself. -/
def nextKey (key hash : GoString) : Option GoString := if key = [] then some hash else hexXor key hash

/-- The loop that finds the longest prefix: `key`, `target`, and the arguments from `index` on.
The key is set before the host is checked. -/
def walk (strings : GoString → Option GoString) (hosts : Hosts) :
    GoString → GoString → GoString → List GoString → Option (GoString × GoString × List GoString)
  | _, key, target, [] => some (key, target, [])
  | currentKey, key, target, arg :: args =>
      (nextKey currentKey arg).bind fun currentKey =>
        match strings currentKey with
        | none => some (key, target, arg :: args)
        | some tmpTarget =>
            if tmpTarget ∈ hosts.healthy then walk strings hosts currentKey currentKey tmpTarget args
            else some (currentKey, target, arg :: args)

/-- The global least request: the target and its count after some of the hosts. -/
def leastRequestStep (counts : GoString → Option ℤ) (randomBool : ℕ → Bool)
    (acc : GoString × ℤ) (host : GoString × ℕ) : GoString × ℤ :=
  match counts host.1 with
  | none => acc
  | some count =>
      if count < acc.2 then (host.1, count)
      else if count = acc.2 ∧ randomBool host.2 then (host.1, acc.2)
      else acc

def leastRequest (counts : GoString → Option ℤ) (hosts : Hosts) (randomBool : ℕ → Bool) :
    GoString :=
  match counts hosts.defaultTarget with
  | none => hosts.defaultTarget
  | some count =>
      (hosts.healthy.zipIdx.foldl (leastRequestStep counts randomBool)
        (hosts.defaultTarget, count)).1

/-- The loop that adds the path. -/
def addPath (target : GoString) :
    GoString → List GoString → (GoString → Option GoString) → Option (GoString → Option GoString)
  | _, [], strings => some strings
  | key, arg :: args, strings =>
      (nextKey key arg).bind fun key =>
        addPath target key args (Function.update strings key (some target))

/-- `RedisLua`. -/
def script (hosts : Hosts) (randomBool : ℕ → Bool) (args : List GoString) (s : Redis) :
    Option (GoString × Redis) :=
  (walk s.strings hosts [] [] [] args).bind fun (key, target, rest) =>
    let (target, rest) :=
      if target = [] then (leastRequest s.counts hosts randomBool, args) else (target, rest)
    let counts := Function.update s.counts target (some ((s.counts target).getD 0 + 1))
    (addPath target key rest s.strings).map fun strings => (target, ⟨strings, counts⟩)

/-- The keys of the prefixes of a list of hashes, behind a key. -/
def prefixKeys : GoString → List GoString → Option (List GoString)
  | _, [] => some []
  | key, hash :: hashes =>
      (nextKey key hash).bind fun key => (prefixKeys key hashes).map fun keys => key :: keys

/-! ### Sums -/

/-- The bytes of a sum. -/
def IsSum (sum : List ℕ) : Prop := sum.length = 20 ∧ ∀ b ∈ sum, b < 256

/-- What `computeSHA1` returns: the digits of a sum, in upper case. -/
def IsHash (s : GoString) : Prop := ∃ sum, IsSum sum ∧ s = bytesToHex sum

theorem mod_two_pow_mul_two (x i : ℕ) :
    x % (2 ^ i * 2) = 2 ^ i * (x.testBit i).toNat + x % 2 ^ i := by
  rw [← Nat.pow_succ, Nat.mod_pow_succ, Nat.add_comm, Nat.toNat_testBit]

theorem decide_ge_eq_testBit (x i : ℕ) : decide (x % (2 ^ i * 2) ≥ 2 ^ i) = x.testBit i := by
  have hlt := Nat.mod_lt x (Nat.two_pow_pos i)
  rw [mod_two_pow_mul_two]
  cases x.testBit i
  · simpa using hlt
  · simp

/-- A number is the sum of its bits. -/
theorem foldl_testBit (c n : ℕ) :
    (List.range n).foldl (fun r i => if c.testBit i = true then r + 2 ^ i else r) 0 = c % 2 ^ n := by
  induction n with
  | zero => simp [Nat.mod_one]
  | succ n ih =>
      rw [List.range_succ, List.foldl_append, ih, Nat.pow_succ, mod_two_pow_mul_two]
      cases h : c.testBit n <;> simp [h, Nat.add_comm]

theorem byteXor_eq {a b : ℕ} (ha : a < 256) (hb : b < 256) : byteXor a b = a ^^^ b := by
  have hlt : a ^^^ b < 2 ^ 8 := Nat.xor_lt_two_pow ha hb
  have hbit (i : ℕ) : a.testBit i ≠ b.testBit i ↔ (a ^^^ b).testBit i = true := by
    rw [Nat.testBit_xor]
    cases a.testBit i <;> cases b.testBit i <;> simp
  simp only [byteXor, decide_ge_eq_testBit, hbit]
  rw [foldl_testBit, Nat.mod_eq_of_lt hlt]

theorem hexValue_hexDigit : ∀ n < 16, hexValue (hexDigit n) = some n := by decide

theorem hexToBytes_bytesToHex {sum : List ℕ} (h : ∀ b ∈ sum, b < 256) :
    hexToBytes (bytesToHex sum) = some sum := by
  induction sum with
  | nil => rfl
  | cons b sum ih =>
      have hb : b < 256 := h b (by simp)
      have ih' := ih fun c hc => h c (by simp [hc])
      simp only [bytesToHex] at ih'
      simp only [bytesToHex, List.flatMap_cons, List.cons_append, List.nil_append, hexToBytes,
        hexValue_hexDigit (b / 16) (by omega), hexValue_hexDigit (b % 16) (by omega), ih',
        Option.bind_some, Option.map_some, Nat.div_add_mod]

theorem length_bytesToHex (sum : List ℕ) : (bytesToHex sum).length = 2 * sum.length := by
  induction sum with
  | nil => rfl
  | cons b sum ih => simp_all [bytesToHex]; omega

theorem zipWith_byteXor {x y : List ℕ} (hx : ∀ b ∈ x, b < 256) (hy : ∀ b ∈ y, b < 256) :
    List.zipWith byteXor x y = List.zipWith (· ^^^ ·) x y := by
  induction x generalizing y with
  | nil => rfl
  | cons a x ih =>
      cases y with
      | nil => rfl
      | cons b y =>
          simp only [List.mem_cons, forall_eq_or_imp] at hx hy
          simp only [List.zipWith_cons_cons, byteXor_eq hx.1 hy.1, ih hx.2 hy.2]

theorem IsSum.xor {x y : List ℕ} (hx : IsSum x) (hy : IsSum y) :
    IsSum (List.zipWith (· ^^^ ·) x y) := by
  refine ⟨by simp [hx.1, hy.1], fun b hb => ?_⟩
  obtain ⟨i, hi, rfl⟩ := List.getElem_of_mem hb
  rw [List.getElem_zipWith]
  exact Nat.xor_lt_two_pow (n := 8) (hx.2 _ (List.getElem_mem _)) (hy.2 _ (List.getElem_mem _))

theorem hexXor_bytesToHex {x y : List ℕ} (hx : IsSum x) (hy : IsSum y) :
    hexXor (bytesToHex x) (bytesToHex y) = some (bytesToHex (List.zipWith (· ^^^ ·) x y)) := by
  simp [hexXor, length_bytesToHex, hx.1, hy.1, hexToBytes_bytesToHex hx.2,
    hexToBytes_bytesToHex hy.2, zipWith_byteXor hx.2 hy.2]

theorem bytesToHex_ne_nil {sum : List ℕ} (h : IsSum sum) : bytesToHex sum ≠ [] := by
  intro heq
  have hlen := length_bytesToHex sum
  rw [heq, h.1] at hlen
  simp at hlen

/-! ### The keys of the prefixes -/

/-- The key of the empty prefix, or of another one. -/
def IsKey (key : GoString) : Prop := key = [] ∨ IsHash key

theorem exists_nextKey {key hash : GoString} (hk : IsKey key) (hh : IsHash hash) :
    ∃ key', nextKey key hash = some key' ∧ IsHash key' := by
  rcases hk with rfl | ⟨x, hx, rfl⟩
  · exact ⟨hash, by simp [nextKey], hh⟩
  · obtain ⟨y, hy, rfl⟩ := hh
    refine ⟨bytesToHex (List.zipWith (· ^^^ ·) x y), ?_, _, hx.xor hy, rfl⟩
    simp [nextKey, bytesToHex_ne_nil hx, hexXor_bytesToHex hx hy]

theorem exists_prefixKeys {key : GoString} {args : List GoString} (hk : IsKey key)
    (ha : ∀ p ∈ args, IsHash p) : ∃ keys, prefixKeys key args = some keys := by
  induction args generalizing key with
  | nil => exact ⟨[], rfl⟩
  | cons p args ih =>
      simp only [List.mem_cons, forall_eq_or_imp] at ha
      obtain ⟨key', hnext, hkey'⟩ := exists_nextKey hk ha.1
      obtain ⟨keys, hkeys⟩ := ih (.inr hkey') ha.2
      exact ⟨key' :: keys, by simp [prefixKeys, hnext, hkeys]⟩

theorem length_prefixKeys {key : GoString} {args keys : List GoString}
    (h : prefixKeys key args = some keys) : keys.length = args.length := by
  induction args generalizing key keys with
  | nil => simp_all [prefixKeys]
  | cons p args ih =>
      simp only [prefixKeys, Option.bind_eq_some_iff, Option.map_eq_some_iff] at h
      obtain ⟨key', -, keys', hkeys', rfl⟩ := h
      simp [ih hkeys']

/-- The last key is the combination of all sums. -/
theorem getLast?_prefixKeys {x : List ℕ} {sums : List (List ℕ)} (hx : IsSum x)
    (hs : ∀ sum ∈ sums, IsSum sum) {keys : List GoString}
    (h : prefixKeys (bytesToHex x) (sums.map bytesToHex) = some keys) :
    (bytesToHex x :: keys).getLast? =
      some (bytesToHex (sums.foldl (List.zipWith (· ^^^ ·)) x)) := by
  induction sums generalizing x keys with
  | nil => simp_all [prefixKeys]
  | cons y sums ih =>
      simp only [List.mem_cons, forall_eq_or_imp] at hs
      simp only [List.map_cons, prefixKeys, nextKey, if_neg (bytesToHex_ne_nil hx),
        hexXor_bytesToHex hx hs.1, Option.bind_some, Option.map_eq_some_iff] at h
      obtain ⟨keys', hkeys', rfl⟩ := h
      rw [List.getLast?_cons_cons, ih (hx.xor hs.1) hs.2 hkeys', List.foldl_cons]

theorem zipWith_xor_right_comm (x y z : List ℕ) :
    List.zipWith (· ^^^ ·) (List.zipWith (· ^^^ ·) x y) z =
      List.zipWith (· ^^^ ·) (List.zipWith (· ^^^ ·) x z) y := by
  apply List.ext_getElem
  · simp only [List.length_zipWith]
    omega
  · intro i hi hi'
    simp only [List.getElem_zipWith]
    exact Nat.xor_right_comm _ _ _

theorem zipWith_xor_zero {x : List ℕ} (n : ℕ) (h : x.length = n) :
    List.zipWith (· ^^^ ·) (List.replicate n 0) x = x := by
  apply List.ext_getElem
  · simp [h]
  · intro i hi hi'
    simp [List.getElem_zipWith]

theorem exists_sums {args : List GoString} (h : ∀ p ∈ args, IsHash p) :
    ∃ sums : List (List ℕ), (∀ sum ∈ sums, IsSum sum) ∧ args = sums.map bytesToHex := by
  induction args with
  | nil => exact ⟨[], by simp, rfl⟩
  | cons p args ih =>
      simp only [List.mem_cons, forall_eq_or_imp] at h
      obtain ⟨sum, hsum, rfl⟩ := h.1
      obtain ⟨sums, hsums, rfl⟩ := ih h.2
      exact ⟨sum :: sums, by simpa using ⟨hsum, hsums⟩, rfl⟩

/-- The last key is the combination of all sums, in whatever order. -/
theorem getLast?_prefixKeys_nil {sums : List (List ℕ)} (hs : ∀ sum ∈ sums, IsSum sum)
    (hne : sums ≠ []) {keys : List GoString}
    (h : prefixKeys [] (sums.map bytesToHex) = some keys) :
    keys.getLast? =
      some (bytesToHex (sums.foldl (List.zipWith (· ^^^ ·)) (List.replicate 20 0))) := by
  cases sums with
  | nil => contradiction
  | cons x sums =>
      simp only [List.mem_cons, forall_eq_or_imp] at hs
      simp only [List.map_cons, prefixKeys, nextKey, if_true, Option.bind_some,
        Option.map_eq_some_iff] at h
      obtain ⟨keys', hkeys', rfl⟩ := h
      rw [getLast?_prefixKeys hs.1 hs.2 hkeys', List.foldl_cons, zipWith_xor_zero 20 hs.1.1]

theorem getLast?_prefixKeys_perm {args args' keys keys' : List GoString}
    (ha : ∀ p ∈ args, IsHash p) (hne : args ≠ []) (hp : args.Perm args')
    (h : prefixKeys [] args = some keys) (h' : prefixKeys [] args' = some keys') :
    keys'.getLast? = keys.getLast? := by
  obtain ⟨sums, hsums, rfl⟩ := exists_sums ha
  obtain ⟨sums', hsums', rfl⟩ := exists_sums fun p hp' => ha p (hp.mem_iff.2 hp')
  -- the digits determine the sums, so that these are a permutation as well
  have hperm : sums.Perm sums' := by
    have hmap := hp.map fun s => (hexToBytes s).getD []
    have hid {l : List (List ℕ)} (hl : ∀ sum ∈ l, IsSum sum) :
        (l.map bytesToHex).map (fun s => (hexToBytes s).getD []) = l := by
      rw [List.map_map]
      conv_rhs => rw [← List.map_id l]
      exact List.map_congr_left fun sum hsum => by simp [hexToBytes_bytesToHex (hl sum hsum).2]
    rwa [hid hsums, hid hsums'] at hmap
  have hsne : sums ≠ [] := by simpa using hne
  have hsne' : sums' ≠ [] := fun heq => hsne (by simpa [heq] using hperm)
  rw [getLast?_prefixKeys_nil hsums hsne h, getLast?_prefixKeys_nil hsums' hsne' h',
    hperm.foldl_eq' fun x _ y _ z => zipWith_xor_right_comm z x y]

/-! ### The walk and the path -/

/-- No key that the walk meets has a host that is not healthy. -/
def MeetsHealthy (strings : GoString → Option GoString) (hosts : Hosts) : List GoString → Prop
  | [] => True
  | key :: keys =>
      match strings key with
      | none => True
      | some host => host ∈ hosts.healthy ∧ MeetsHealthy strings hosts keys

/-- Whatever the walk meets, it ends behind a hash of the list, with a host that is healthy or none. -/
theorem walk_some (strings : GoString → Option GoString) (hosts : Hosts)
    {currentKey key target : GoString} {args : List GoString} (hc : IsKey currentKey)
    (hk : IsKey key) (ht : target = [] ∨ target ∈ hosts.healthy) (ha : ∀ p ∈ args, IsHash p) :
    ∃ key' target' rest, walk strings hosts currentKey key target args = some (key', target', rest) ∧
      IsKey key' ∧ (target' = [] ∨ target' ∈ hosts.healthy) ∧ ∀ p ∈ rest, IsHash p := by
  induction args generalizing currentKey key target with
  | nil => exact ⟨key, target, [], rfl, hk, ht, by simp⟩
  | cons p args ih =>
      have ha' := ha
      simp only [List.mem_cons, forall_eq_or_imp] at ha'
      obtain ⟨next, hnext, hhash⟩ := exists_nextKey hc ha'.1
      simp only [walk, hnext, Option.bind_some]
      cases strings next with
      | none => exact ⟨key, target, p :: args, rfl, hk, ht, ha⟩
      | some tmpTarget =>
          simp only
          split
          · rename_i hmem
            exact ih (.inr hhash) (.inr hhash) (.inr hmem) ha'.2
          · exact ⟨next, target, p :: args, rfl, .inr hhash, ht, ha⟩

/-- The walk over keys without a host that is not healthy splits them: the ones that it has seen
have healthy hosts, the last of them the target, and the first of the others is not there. -/
theorem walk_split {strings : GoString → Option GoString} {hosts : Hosts} {key target : GoString}
    {args keys : List GoString} (h : prefixKeys key args = some keys)
    (hm : MeetsHealthy strings hosts keys) :
    ∃ key' target' rest seen left,
      walk strings hosts key key target args = some (key', target', rest) ∧
      prefixKeys key' rest = some left ∧ keys = seen ++ left ∧
      (∀ k ∈ seen, ∃ host ∈ hosts.healthy, strings k = some host) ∧
      (∀ k ∈ left.head?, strings k = none) ∧
      (seen = [] ∧ key' = key ∧ target' = target ∨
        target' ∈ hosts.healthy ∧ ∃ k, seen.getLast? = some k ∧ strings k = some target') := by
  induction args generalizing key target keys with
  | nil =>
      obtain rfl : keys = [] := by simpa [prefixKeys] using h.symm
      exact ⟨key, target, [], [], [], rfl, rfl, rfl, by simp, by simp, .inl ⟨rfl, rfl, rfl⟩⟩
  | cons p args ih =>
      have h' := h
      simp only [prefixKeys, Option.bind_eq_some_iff, Option.map_eq_some_iff] at h'
      obtain ⟨next, hnext, keys', hkeys', rfl⟩ := h'
      simp only [walk, hnext, Option.bind_some]
      cases hs : strings next with
      | none =>
          exact ⟨key, target, p :: args, [], next :: keys', rfl, h, rfl, by simp, by simp [hs],
            .inl ⟨rfl, rfl, rfl⟩⟩
      | some host =>
          simp only [MeetsHealthy, hs] at hm
          obtain ⟨key', target', rest, seen, left, hwalk, hleft, rfl, hseen, habsent, hlast⟩ :=
            @ih next host keys' hkeys' hm.2
          refine ⟨key', target', rest, next :: seen, left, by simp [hm.1, hwalk], hleft, rfl, ?_,
            habsent, .inr ?_⟩
          · simpa using ⟨⟨host, hm.1, hs⟩, hseen⟩
          · rcases hlast with ⟨rfl, rfl, rfl⟩ | ⟨hmem, k, hk, hkt⟩
            · exact ⟨hm.1, key', rfl, hs⟩
            · exact ⟨hmem, k, by simp [List.getLast?_cons, hk], hkt⟩

/-- The path gives the target to the keys that are left, and changes no other. -/
theorem addPath_eq (target key : GoString) (args : List GoString)
    (strings : GoString → Option GoString) :
    addPath target key args strings =
      (prefixKeys key args).map fun keys k => if k ∈ keys then some target else strings k := by
  induction args generalizing key strings with
  | nil => simp [addPath, prefixKeys]
  | cons p args ih =>
      simp only [addPath, prefixKeys]
      cases nextKey key p with
      | none => rfl
      | some next =>
          simp only [Option.bind_some, ih, Option.map_map]
          congr 1
          ext keys k
          by_cases hk : k = next <;> simp [Function.update, hk]

theorem meetsHealthy_of_forall {strings : GoString → Option GoString} {hosts : Hosts}
    {keys : List GoString} (h : ∀ k ∈ keys, ∃ host ∈ hosts.healthy, strings k = some host) :
    MeetsHealthy strings hosts keys := by
  induction keys with
  | nil => trivial
  | cons k keys ih =>
      simp only [List.mem_cons, forall_eq_or_imp] at h
      obtain ⟨⟨host, hmem, hk⟩, hkeys⟩ := h
      simpa only [MeetsHealthy, hk] using ⟨hmem, ih hkeys⟩

theorem leastRequest_mem (counts : GoString → Option ℤ) (hosts : Hosts) (randomBool : ℕ → Bool) :
    leastRequest counts hosts randomBool ∈ hosts.healthy := by
  unfold leastRequest
  cases counts hosts.defaultTarget with
  | none => exact hosts.default_mem
  | some count =>
      refine List.foldlRecOn (motive := fun acc : GoString × ℤ => acc.1 ∈ hosts.healthy) _ _
        hosts.default_mem fun acc hacc host hhost => ?_
      have hmem : host.1 ∈ hosts.healthy := List.fst_mem_of_mem_zipIdx hhost
      unfold leastRequestStep
      split
      · exact hacc
      · split_ifs
        · exact hmem
        · exact hmem
        · exact hacc

/-! ### One run and the next -/

/-- A run of the script, by what the walk and the path of keys give. -/
theorem script_eq {hosts : Hosts} (randomBool : ℕ → Bool) {args rest : List GoString} {s : Redis}
    {key target : GoString} (hw : walk s.strings hosts [] [] [] args = some (key, target, rest)) :
    ∃ counts, script hosts randomBool args s =
      (if target = [] then
        (prefixKeys key args).map fun keys =>
          (leastRequest s.counts hosts randomBool, ⟨fun k => if k ∈ keys then
            some (leastRequest s.counts hosts randomBool) else s.strings k, counts⟩)
      else
        (prefixKeys key rest).map fun keys =>
          (target, ⟨fun k => if k ∈ keys then some target else s.strings k, counts⟩)) := by
  simp only [script, hw, Option.bind_some, addPath_eq, Option.map_map]
  split_ifs with ht
  · exact ⟨_, rfl⟩
  · exact ⟨_, rfl⟩

theorem script_mem (hosts : Hosts) (randomBool : ℕ → Bool) {args : List GoString} (s : Redis)
    (ha : ∀ p ∈ args, IsHash p) :
    ∃ target s', script hosts randomBool args s = some (target, s') ∧ target ∈ hosts.healthy := by
  obtain ⟨key, target, rest, hwalk, hkey, htarget, hrest⟩ :=
    walk_some s.strings hosts (.inl rfl) (.inl rfl) (.inl rfl) ha
  obtain ⟨counts, hscript⟩ := script_eq randomBool hwalk
  split_ifs at hscript with ht
  · obtain ⟨keys, hkeys⟩ := exists_prefixKeys hkey ha
    rw [hkeys] at hscript
    exact ⟨_, _, hscript, leastRequest_mem _ _ _⟩
  · obtain ⟨keys, hkeys⟩ := exists_prefixKeys hkey hrest
    rw [hkeys] at hscript
    exact ⟨_, _, hscript, htarget.resolve_left ht⟩

/-- A run adds one to the count of the target. -/
theorem counts_of_script {hosts : Hosts} {randomBool : ℕ → Bool} {args : List GoString}
    {s s' : Redis} {target : GoString} (h : script hosts randomBool args s = some (target, s')) :
    s'.counts = Function.update s.counts target (some ((s.counts target).getD 0 + 1)) := by
  simp only [script, Option.bind_eq_some_iff, Option.map_eq_some_iff, Prod.mk.injEq] at h
  obtain ⟨⟨key, found, rest⟩, -, strings, -, rfl, rfl⟩ := h
  rfl

/-- Behind a run that met no host that is not healthy, every key has a healthy host, and the last
one the target. -/
theorem script_keys {hosts : Hosts} {randomBool : ℕ → Bool} {args keys : List GoString}
    {s s' : Redis} {target : GoString} (hk : prefixKeys [] args = some keys) (hne : keys ≠ [])
    (hm : MeetsHealthy s.strings hosts keys)
    (h : script hosts randomBool args s = some (target, s')) :
    (∀ k ∈ keys, ∃ host ∈ hosts.healthy, s'.strings k = some host) ∧
      ∃ k, keys.getLast? = some k ∧ s'.strings k = some target ∧ target ∈ hosts.healthy := by
  obtain ⟨key, found, rest, seen, left, hwalk, hleft, rfl, hseen, -, hlast⟩ := walk_split hk hm
  obtain ⟨counts, hscript⟩ := script_eq randomBool hwalk
  rw [h] at hscript
  obtain ⟨k, hgetLast⟩ : ∃ k, (seen ++ left).getLast? = some k :=
    Option.isSome_iff_exists.1 (List.getLast?_isSome.2 hne)
  have hkmem : k ∈ seen ++ left := List.mem_of_getLast? hgetLast
  rcases hlast with ⟨rfl, rfl, rfl⟩ | ⟨hmem, k₀, hk₀, htarget⟩
  · -- no key was there, and all are written
    rw [if_pos rfl, hk] at hscript
    simp only [Option.map_some, Option.some.injEq, Prod.mk.injEq] at hscript
    obtain ⟨rfl, rfl⟩ := hscript
    have hleast := leastRequest_mem s.counts hosts randomBool
    exact ⟨fun k hk' => ⟨_, hleast, if_pos hk'⟩, k, hgetLast, if_pos hkmem, hleast⟩
  · -- the keys behind the last one that was there are written
    have hfound : found ≠ [] := fun heq => hosts.ne_nil (heq ▸ hmem)
    rw [if_neg hfound, hleft] at hscript
    simp only [Option.map_some, Option.some.injEq, Prod.mk.injEq] at hscript
    obtain ⟨rfl, rfl⟩ := hscript
    refine ⟨fun k hk' => ?_, k, hgetLast, ?_, hmem⟩
    · by_cases hl : k ∈ left
      · exact ⟨target, hmem, by simp [hl]⟩
      · obtain ⟨host, hhost, hstr⟩ := hseen k ((List.mem_append.1 hk').resolve_right hl)
        exact ⟨host, hhost, by simp [hl, hstr]⟩
    · by_cases hl : k ∈ left
      · simp [hl]
      · -- the last key is not written only if none is
        have hnil : left = [] := by
          by_contra hleft'
          rw [List.getLast?_append_of_ne_nil _ hleft'] at hgetLast
          exact hl (List.mem_of_getLast? hgetLast)
        subst hnil
        rw [List.append_nil, hk₀, Option.some.injEq] at hgetLast
        simp [← hgetLast, htarget]

/-- If every key has a healthy host, the script returns the one of the last key. -/
theorem script_of_forall {hosts : Hosts} (randomBool : ℕ → Bool) {args keys : List GoString}
    {s : Redis} {k target : GoString} (hk : prefixKeys [] args = some keys)
    (hall : ∀ k ∈ keys, ∃ host ∈ hosts.healthy, s.strings k = some host)
    (hlast : keys.getLast? = some k) (ht : s.strings k = some target) :
    ∃ s', script hosts randomBool args s = some (target, s') := by
  obtain ⟨key, found, rest, seen, left, hwalk, hleft, rfl, -, habsent, hend⟩ :=
    walk_split hk (meetsHealthy_of_forall hall)
  have hnil : left = [] := by
    cases left with
    | nil => rfl
    | cons k' left =>
        obtain ⟨host, -, hhost⟩ := hall k' (by simp)
        simp [habsent k' rfl] at hhost
  subst hnil
  rw [List.append_nil] at hlast
  rcases hend with ⟨rfl, -, -⟩ | ⟨hmem, k₀, hk₀, hfound⟩
  · simp at hlast
  · obtain rfl : k₀ = k := by simpa [hk₀] using hlast
    obtain rfl : found = target := by simpa [hfound] using ht
    have hne : found ≠ [] := fun heq => hosts.ne_nil (heq ▸ hmem)
    obtain ⟨counts, hscript⟩ := script_eq randomBool hwalk
    rw [if_neg hne, hleft] at hscript
    exact ⟨_, hscript⟩

/-- The affinity of prompts. The target is healthy; if the keys that the walk meets have healthy
hosts, then so has every key of a prefix behind the run, and the next run has the same target. The
key of the whole prompt does not depend on the order of the hashes. -/
theorem script_affinity (hosts : Hosts) (randomBool : ℕ → Bool) (args : List GoString)
    (hne : args ≠ []) (ha : ∀ p ∈ args, IsHash p) (s : Redis) :
    ∃ target s' keys, script hosts randomBool args s = some (target, s') ∧
      prefixKeys [] args = some keys ∧ target ∈ hosts.healthy ∧
      (MeetsHealthy s.strings hosts keys →
        (∀ k ∈ keys, ∃ host ∈ hosts.healthy, s'.strings k = some host) ∧
        ∀ randomBool', ∃ s'', script hosts randomBool' args s' = some (target, s'')) ∧
      ∀ args', args.Perm args' →
        ∃ keys', prefixKeys [] args' = some keys' ∧ keys'.getLast? = keys.getLast? := by
  obtain ⟨target, s', hscript, hmem⟩ := script_mem hosts randomBool s ha
  obtain ⟨keys, hkeys⟩ := exists_prefixKeys (.inl rfl) ha
  have hkne : keys ≠ [] := by
    intro heq
    have hlen := length_prefixKeys hkeys
    rw [heq, List.length_nil, eq_comm, List.length_eq_zero_iff] at hlen
    exact hne hlen
  refine ⟨target, s', keys, hscript, hkeys, hmem, fun hm => ?_, fun args' hp => ?_⟩
  · obtain ⟨hall, k, hlast, hk, -⟩ := script_keys hkeys hkne hm hscript
    exact ⟨hall, fun randomBool' => script_of_forall randomBool' hkeys hall hlast hk⟩
  · obtain ⟨keys', hkeys'⟩ := exists_prefixKeys (.inl rfl) fun p hp' => ha p (hp.mem_iff.2 hp')
    exact ⟨keys', hkeys', getLast?_prefixKeys_perm ha hne hp hkeys hkeys'⟩

/-- A sum of twenty equal bytes, as a hash. -/
def plainHash (b : ℕ) : GoString := bytesToHex (List.replicate 20 b)

theorem isHash_plainHash {b : ℕ} (h : b < 256) : IsHash (plainHash b) :=
  ⟨_, ⟨by simp, fun c hc => by rw [List.eq_of_mem_replicate hc]; exact h⟩, rfl⟩

def oneHost : Hosts where
  defaultTarget := [49]
  healthy := [[49]]
  default_mem := by simp
  ne_nil := by simp

theorem script_affinity_empty :
    ∃ target s' keys,
      script oneHost (fun _ => false) [plainHash 1, plainHash 2] ⟨fun _ => none, fun _ => none⟩ =
        some (target, s') ∧
      prefixKeys [] [plainHash 1, plainHash 2] = some keys ∧
      (∀ k ∈ keys, ∃ host ∈ oneHost.healthy, s'.strings k = some host) ∧
      ∀ randomBool', ∃ s'', script oneHost randomBool' [plainHash 1, plainHash 2] s' =
        some (target, s'') := by
  have hhash : ∀ p ∈ [plainHash 1, plainHash 2], IsHash p := by
    simp [isHash_plainHash]
  obtain ⟨target, s', keys, hscript, hkeys, -, hmeets, -⟩ := script_affinity oneHost (fun _ => false)
    [plainHash 1, plainHash 2] (by simp) hhash ⟨fun _ => none, fun _ => none⟩
  have hm : MeetsHealthy (fun _ => none) oneHost keys := by cases keys <;> trivial
  exact ⟨target, s', keys, hscript, hkeys, (hmeets hm).1, (hmeets hm).2⟩

/-- Two lists that differ in order alone share a key. -/
theorem prefixKeys_not_disjoint :
    IsHash (plainHash 1) ∧ IsHash (plainHash 2) ∧
      [plainHash 1, plainHash 2].Perm [plainHash 2, plainHash 1] ∧
      [plainHash 1, plainHash 2] ≠ [plainHash 2, plainHash 1] ∧
      ∃ keys keys', prefixKeys [] [plainHash 1, plainHash 2] = some keys ∧
        prefixKeys [] [plainHash 2, plainHash 1] = some keys' ∧ plainHash 3 ∈ keys ∧
        plainHash 3 ∈ keys' := by
  have h₁ : prefixKeys [] [plainHash 1, plainHash 2] = some [plainHash 1, plainHash 3] := by decide
  have h₂ : prefixKeys [] [plainHash 2, plainHash 1] = some [plainHash 2, plainHash 3] := by decide
  exact ⟨isHash_plainHash (by decide), isHash_plainHash (by decide), List.Perm.swap _ _ _,
    by decide, _, _, h₁, h₂, by simp, by simp⟩

end Higress.LoadBalancer.PrefixCache
