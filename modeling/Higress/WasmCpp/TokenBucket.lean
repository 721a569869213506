import Mathlib
import Higress.Lib.GoString
import Higress.Lib.SharedData

/-!
Token buckets in the data that the VMs of a proxy share (`key_rate_limit/bucket.cc`). A bucket has
two keys, which are changed under versions of their own: the tokens that are left, and the time of
the last refill. A VM that wants to refill a bucket first writes the time; if it succeeds, it has
claimed the refill, and adds the tokens in a loop.

The clock does not go back and does not wrap. A loop without an end has a number of attempts that
comes with the call, so that a run of the code is a run of the model with numbers that are large
enough. The names of the keys begin with the digits of the rule, which the key type keeps apart.
-/

namespace Higress.WasmCpp.TokenBucket

open Lib Lib.SharedData

/-! ### The calls -/

/-- The keys of the shared data: `tokenBucketPrefix` and `lastRefilledPrefix`. -/
inductive Key where
  | tokenBucket (ruleId : ℤ) (key : GoString)
  | lastRefilled (ruleId : ℤ) (key : GoString)
  deriving DecidableEq

/-- Both hold a number of 64 bits. -/
abbrev Value (_ : Key) : Type := ℕ

structure LimitItem where
  key : GoString
  tokensPerRefill : ℕ
  refillIntervalNanosec : ℕ
  maxTokens : ℕ

def maxGetTokenRetry : ℕ := 20

/-- What a call answers. `getToken` admits a request with the token that it has taken, or after its
last attempt without one. -/
inductive Answer where
  | admitted
  | denied
  | exhausted
  | refilled
  deriving DecidableEq

def takePlan : Option ℕ → Plan ℕ
  | none => .again
  | some 0 => .stop
  | some (tokenLeft + 1) => .put tokenLeft

def answerOf : Outcome → Answer
  | .written => .admitted
  | .stopped => .denied
  | .exhausted => .exhausted

def getToken (ruleId : ℤ) (key : GoString) : Prog Value Answer :=
  (Prog.retry (.tokenBucket ruleId key) takePlan maxGetTokenRetry).bind fun outcome =>
    .ret (answerOf outcome)

/-- The sum of two numbers of 64 bits. -/
@[irreducible] def add64 (a b : ℕ) : ℕ := (a + b) % 2 ^ 64

/-- The interval has not passed, by the difference of two numbers of 64 bits. -/
@[irreducible] def tooEarly (now lastUpdate interval : ℕ) : Bool :=
  (now + 2 ^ 64 - lastUpdate) % 2 ^ 64 < interval

theorem add64_le (a b : ℕ) : add64 a b ≤ a + b := by
  unfold add64
  exact Nat.mod_le _ _

theorem le_of_not_tooEarly {now lastUpdate interval : ℕ} (hle : lastUpdate ≤ now)
    (h : ¬ tooEarly now lastUpdate interval = true) : lastUpdate + interval ≤ now := by
  unfold tooEarly at h
  have hsub : now + 2 ^ 64 - lastUpdate = (now - lastUpdate) + 2 ^ 64 := by omega
  have hmod := Nat.mod_le (now - lastUpdate) (2 ^ 64)
  rw [hsub, Nat.add_mod_right, decide_eq_true_eq] at h
  omega

def refillPlan (item : LimitItem) : Option ℕ → Plan ℕ
  | none => .stop
  | some tokenLeft =>
      let tokenLeft := add64 tokenLeft item.tokensPerRefill
      .put (if tokenLeft > item.maxTokens then item.maxTokens else tokenLeft)

/-- The loop that adds the tokens. -/
def addTokens (attempts : ℕ) (rule : ℤ × LimitItem) : Prog Value Unit :=
  (Prog.retry (.tokenBucket rule.1 rule.2.key) (refillPlan rule.2) attempts).bind fun _ => .ret ()

/-- The refill of one bucket from where the time is read: if the refill is due, the time is written
under the version of the last one. -/
def claimRefill (attempts : ℕ) (rule : ℤ × LimitItem) (lastUpdate lastUpdateCas now : ℕ) :
    Prog Value Unit :=
  if tooEarly now lastUpdate rule.2.refillIntervalNanosec then .ret ()
  else
    .set (.lastRefilled rule.1 rule.2.key) now lastUpdateCas fun ok =>
      if ok then addTokens attempts rule else .ret ()

/-- The refill of one bucket. -/
def refillRule (attempts : ℕ) (rule : ℤ × LimitItem) : Prog Value Unit :=
  .get (.lastRefilled rule.1 rule.2.key) fun cell =>
    match cell with
    | none => .ret ()
    | some (lastUpdate, lastUpdateCas) =>
        .now (claimRefill attempts rule lastUpdate lastUpdateCas)

def refillToken (attempts : ℕ) : List (ℤ × LimitItem) → Prog Value Unit
  | [] => .ret ()
  | rule :: rules => (refillRule attempts rule).bind fun _ => refillToken attempts rules

/-- The calls of the VMs. -/
inductive Op where
  | getToken (ruleId : ℤ) (key : GoString)
  | refillToken (attempts : ℕ)
  deriving DecidableEq

def code (rules : List (ℤ × LimitItem)) : Op → Prog Value Answer
  | .getToken ruleId key => getToken ruleId key
  | .refillToken attempts => (refillToken attempts rules).bind fun _ => .ret .refilled

/-! ### One bucket -/

section Bucket

variable (ruleId : ℤ) (item : LimitItem)

/-- A write of the time of the last refill, which claims a refill. -/
def claimOf (entry : Op × (k : Key) × Value k) : Option ℕ :=
  match entry with
  | (_, ⟨.lastRefilled id key, time⟩) => if id = ruleId ∧ key = item.key then some time else none
  | _ => none

/-- The times of the claims. -/
def claims (history : List (Op × (k : Key) × Value k)) : List ℕ :=
  history.filterMap (claimOf ruleId item)

/-- A refill that takes effect: a call of `refillToken` writes the tokens that are left. -/
def isRefill (entry : Op × (k : Key) × Value k) : Bool :=
  match entry with
  | (.refillToken _, ⟨.tokenBucket id key, _⟩) => id = ruleId ∧ key = item.key
  | _ => false

def refills (history : List (Op × (k : Key) × Value k)) : ℕ :=
  history.countP (isRefill ruleId item)

/-- The ghost state of a call: the tokens that it has taken, and the claims that it has not used. -/
structure Ghost where
  taken : ℕ := 0
  claimed : ℕ := 0

/-- The tokens and the time of the last refill, when the bucket had `count` tokens and was last
refilled at the time `since`. -/
structure Inv (count since : ℕ) (sh : Shared Value Op) (gs : List Ghost) : Prop where
  bucket : ∃ tokens cas : ℕ, sh.store (.tokenBucket ruleId item.key) = some (tokens, cas) ∧ cas ≠ 0 ∧
    tokens ≤ item.maxTokens ∧
    tokens + (gs.map Ghost.taken).sum ≤
      count + item.tokensPerRefill * refills ruleId item sh.history
  last : ∃ time cas : ℕ, sh.store (.lastRefilled ruleId item.key) = some (time, cas) ∧ cas ≠ 0 ∧
    time ≤ sh.clock ∧ (since :: claims ruleId item sh.history).getLast? = some time
  apart : (since :: claims ruleId item sh.history).IsChain
    fun earlier later => earlier + item.refillIntervalNanosec ≤ later
  used : refills ruleId item sh.history + (gs.map Ghost.claimed).sum ≤
    (claims ruleId item sh.history).length

end Bucket

/-! ### What a write does to the bucket -/

section Writes

variable {ruleId : ℤ} {item : LimitItem} {count since : ℕ} {sh : Shared Value Op}
  {gs hs : List Ghost} {g : Ghost}

theorem claims_write (op : Op) (k : Key) (v : Value k) :
    claims ruleId item (sh.write op k v).history =
      claims ruleId item sh.history ++ (claimOf ruleId item (op, ⟨k, v⟩)).toList := by
  simp only [claims, Shared.write, List.filterMap_append]
  cases h : claimOf ruleId item (op, ⟨k, v⟩) <;> simp [h]

theorem refills_write (op : Op) (k : Key) (v : Value k) :
    refills ruleId item (sh.write op k v).history =
      refills ruleId item sh.history + (isRefill ruleId item (op, ⟨k, v⟩)).toNat := by
  simp only [refills, Shared.write, List.countP_append]
  cases h : isRefill ruleId item (op, ⟨k, v⟩) <;> simp [h]

/-- A write to another bucket. -/
theorem Inv.other (h : Inv ruleId item count since sh gs) (op : Op) {k : Key} (v : Value k)
    (hbucket : k ≠ .tokenBucket ruleId item.key) (hlast : k ≠ .lastRefilled ruleId item.key) :
    Inv ruleId item count since (sh.write op k v) gs := by
  have hclaim : claimOf ruleId item (op, ⟨k, v⟩) = none := by
    cases k with
    | tokenBucket id key => rfl
    | lastRefilled id key =>
        have hne : ¬ (id = ruleId ∧ key = item.key) := fun heq => hlast (by rw [heq.1, heq.2])
        simp [claimOf, hne]
  have hrefill : isRefill ruleId item (op, ⟨k, v⟩) = false := by
    cases k with
    | lastRefilled id key => cases op <;> rfl
    | tokenBucket id key =>
        have hne : ¬ (id = ruleId ∧ key = item.key) := fun heq => hbucket (by rw [heq.1, heq.2])
        cases op with
        | getToken id' key' => rfl
        | refillToken attempts => simp [isRefill, hne]
  obtain ⟨hbucket', hlast', hapart, hused⟩ := h
  refine ⟨?_, ?_, ?_, ?_⟩
  · simpa [refills_write, hrefill, Shared.store_write, Store.put_of_ne (Ne.symm hbucket)]
      using hbucket'
  · simpa [claims_write, hclaim, Shared.store_write, Shared.clock_write,
      Store.put_of_ne (Ne.symm hlast)] using hlast'
  · simpa [claims_write, hclaim] using hapart
  · simpa [claims_write, refills_write, hclaim, hrefill] using hused

/-- A request takes a token. -/
theorem Inv.take (h : Inv ruleId item count since sh (gs ++ g :: hs)) {tokens cas : ℕ}
    (hget : sh.store (.tokenBucket ruleId item.key) = some (tokens + 1, cas)) :
    Inv ruleId item count since
      (sh.write (.getToken ruleId item.key) (.tokenBucket ruleId item.key) tokens)
      (gs ++ { g with taken := g.taken + 1 } :: hs) := by
  obtain ⟨⟨tokens', cas', hget', -, hmax, hsum⟩, hlast, hapart, hused⟩ := h
  obtain ⟨rfl, rfl⟩ : tokens + 1 = tokens' ∧ cas = cas' := by simpa [hget] using hget'
  have hclaim : claimOf ruleId item
      (.getToken ruleId item.key, ⟨.tokenBucket ruleId item.key, tokens⟩) = none := rfl
  have hrefill : isRefill ruleId item
      (.getToken ruleId item.key, ⟨.tokenBucket ruleId item.key, tokens⟩) = false := rfl
  refine ⟨⟨tokens, cas + 1, by simp [Shared.store_write, hget], by omega, by omega, ?_⟩, ?_, ?_, ?_⟩
  · rw [refills_write, hrefill]
    simp only [List.map_append, List.map_cons, List.sum_append, List.sum_cons, Bool.toNat_false,
      Nat.add_zero] at hsum ⊢
    omega
  · simpa [claims_write, hclaim, Shared.store_write, Shared.clock_write] using hlast
  · simpa [claims_write, hclaim] using hapart
  · simpa [claims_write, refills_write, hclaim, hrefill] using hused

/-- A call that has claimed a refill adds the tokens. -/
theorem Inv.refill (h : Inv ruleId item count since sh (gs ++ g :: hs)) (hg : 0 < g.claimed)
    {tokens cas tokens' attempts : ℕ}
    (hget : sh.store (.tokenBucket ruleId item.key) = some (tokens, cas))
    (hmax' : tokens' ≤ item.maxTokens) (hadd : tokens' ≤ tokens + item.tokensPerRefill) :
    Inv ruleId item count since
      (sh.write (.refillToken attempts) (.tokenBucket ruleId item.key) tokens')
      (gs ++ { g with claimed := g.claimed - 1 } :: hs) := by
  obtain ⟨⟨tokens₀, cas₀, hget₀, -, -, hsum⟩, hlast, hapart, hused⟩ := h
  obtain ⟨rfl, rfl⟩ : tokens = tokens₀ ∧ cas = cas₀ := by simpa [hget] using hget₀
  have hclaim : claimOf ruleId item
      (.refillToken attempts, ⟨.tokenBucket ruleId item.key, tokens'⟩) = none := rfl
  have hrefill : isRefill ruleId item
      (.refillToken attempts, ⟨.tokenBucket ruleId item.key, tokens'⟩) = true := by
    simp [isRefill]
  refine ⟨⟨tokens', cas + 1, by simp [Shared.store_write, hget], by omega, hmax', ?_⟩, ?_, ?_, ?_⟩
  · rw [refills_write, hrefill]
    simp only [List.map_append, List.map_cons, List.sum_append, List.sum_cons, Bool.toNat_true,
      Nat.mul_add, Nat.mul_one] at hsum ⊢
    omega
  · simpa [claims_write, hclaim, Shared.store_write, Shared.clock_write] using hlast
  · simpa [claims_write, hclaim] using hapart
  · rw [refills_write, claims_write, hrefill, hclaim]
    simp only [List.map_append, List.map_cons, List.sum_append, List.sum_cons, Bool.toNat_true,
      Option.toList_none, List.append_nil] at hused ⊢
    omega

/-- A call claims a refill: the time that it read is still that of the last one. -/
theorem Inv.claim (h : Inv ruleId item count since sh (gs ++ g :: hs)) (op : Op)
    {time cas now : ℕ} (hget : sh.store (.lastRefilled ruleId item.key) = some (time, cas))
    (hdue : time + item.refillIntervalNanosec ≤ now) (hnow : now ≤ sh.clock) :
    Inv ruleId item count since (sh.write op (.lastRefilled ruleId item.key) now)
      (gs ++ { g with claimed := g.claimed + 1 } :: hs) := by
  obtain ⟨hbucket, ⟨time', cas', hget', -, -, hlast⟩, hapart, hused⟩ := h
  obtain ⟨rfl, rfl⟩ : time = time' ∧ cas = cas' := by simpa [hget] using hget'
  have hclaim : claimOf ruleId item (op, ⟨.lastRefilled ruleId item.key, now⟩) = some now := by
    simp [claimOf]
  have hrefill : isRefill ruleId item (op, ⟨.lastRefilled ruleId item.key, now⟩) = false := by
    cases op <;> rfl
  refine ⟨?_, ⟨now, cas + 1, by simp [Shared.store_write, hget], by omega, hnow, ?_⟩, ?_, ?_⟩
  · simpa [refills_write, hrefill, Shared.store_write] using hbucket
  · rw [claims_write, hclaim, Option.toList_some, ← List.cons_append, List.getLast?_concat]
  · rw [claims_write, hclaim, Option.toList_some, ← List.cons_append]
    refine List.IsChain.append hapart (List.isChain_singleton _) ?_
    intro x hx y hy
    rw [hlast, Option.mem_some_iff] at hx
    simp only [List.head?_cons, Option.mem_some_iff] at hy
    omega
  · rw [refills_write, claims_write, hrefill, hclaim]
    simp only [List.map_append, List.map_cons, List.sum_append, List.sum_cons, Bool.toNat_false,
      Option.toList_some, List.length_append, List.length_singleton] at hused ⊢
    omega

end Writes

/-! ### The calls keep the bucket -/

section Calls

variable {ruleId : ℤ} {item : LimitItem} {count since : ℕ}

theorem keeps_getToken (known : List (Fact Value)) (past : ℕ) :
    (getToken ruleId item.key).Keeps (Inv ruleId item count since) (.getToken ruleId item.key)
      (fun _ _ r g => r = .admitted → 1 ≤ g.taken) known past {} := by
  refine Prog.Keeps.seq (Prog.Keeps.retry (fun outcome g => outcome = .written → 1 ≤ g.taken)
    (fun sh gs h => ?_) (fun sh gs hs v c h _ _ => ?_) (fun sh gs hs v c w h hget hplan => ?_) ?_ _
    known past) fun known past outcome g hg => ?_
  · obtain ⟨tokens, cas, hget, hcas, -⟩ := h.bucket
    exact ⟨tokens, cas, hget, hcas⟩
  · exact ⟨{}, h, by simp⟩
  · cases v with
    | zero => cases hplan
    | succ tokens =>
        obtain rfl : tokens = w := by simpa [takePlan] using hplan
        exact ⟨_, h.take hget, fun _ => Nat.le_add_left 1 _⟩
  · simp
  · show answerOf outcome = .admitted → 1 ≤ g.taken
    intro hadmitted
    cases outcome with
    | written => exact hg rfl
    | stopped => cases hadmitted
    | exhausted => cases hadmitted

/-- The keys of other buckets. -/
def Apart (ruleId : ℤ) (item : LimitItem) (k : Key) : Prop :=
  k ≠ .tokenBucket ruleId item.key ∧ k ≠ .lastRefilled ruleId item.key

theorem Prog.keeps_of_apart {ρ : Type} {p : Prog Value ρ} (hp : p.WritesIn (Apart ruleId item))
    (op : Op) (known : List (Fact Value)) (past : ℕ) (g : Ghost) :
    p.Keeps (Inv ruleId item count since) op (fun _ _ _ g' => g' = g) known past g :=
  hp.keeps (fun _ _ _ v hk h => h.other op v hk.1 hk.2) known past g

theorem writesIn_getToken {id : ℤ} {key : GoString} (h : ¬ (id = ruleId ∧ key = item.key)) :
    (getToken id key).WritesIn (Apart ruleId item) := by
  refine Prog.WritesIn.bind (Prog.writesIn_retry ⟨fun heq => h ?_, by simp⟩ _ _) fun _ => trivial
  simpa using heq

theorem writesIn_claimRefill (attempts : ℕ) {rule : ℤ × LimitItem} (lastUpdate cas now : ℕ)
    (hlast : Apart ruleId item (.lastRefilled rule.1 rule.2.key))
    (hbucket : Apart ruleId item (.tokenBucket rule.1 rule.2.key)) :
    (claimRefill attempts rule lastUpdate cas now).WritesIn (Apart ruleId item) := by
  unfold claimRefill
  split
  · exact True.intro
  · refine ⟨hlast, fun ok => ?_⟩
    cases ok with
    | false => exact True.intro
    | true => exact (Prog.writesIn_retry hbucket _ _).bind fun _ => True.intro

theorem writesIn_refillRule (attempts : ℕ) {rule : ℤ × LimitItem}
    (h : ¬ (rule.1 = ruleId ∧ rule.2.key = item.key)) :
    (refillRule attempts rule).WritesIn (Apart ruleId item) := by
  have hlast : Apart ruleId item (.lastRefilled rule.1 rule.2.key) :=
    ⟨by simp, fun heq => h (by simpa using heq)⟩
  have hbucket : Apart ruleId item (.tokenBucket rule.1 rule.2.key) :=
    ⟨fun heq => h (by simpa using heq), by simp⟩
  rw [refillRule, Prog.WritesIn]
  intro cell
  rcases cell with _ | ⟨lastUpdate, cas⟩
  · exact True.intro
  · rw [Prog.WritesIn]
    exact fun now => writesIn_claimRefill attempts lastUpdate cas now hlast hbucket

theorem keeps_addTokens (attempts : ℕ) {rule : ℤ × LimitItem} (hid : rule.1 = ruleId)
    (hitem : rule.2 = item) (known : List (Fact Value)) (past : ℕ) {g : Ghost}
    (hg : 0 < g.claimed) :
    (addTokens attempts rule).Keeps (Inv ruleId item count since) (.refillToken attempts)
      (fun _ _ _ _ => True) known past g := by
  subst hid hitem
  refine Prog.Keeps.seq (Prog.Keeps.retry (fun _ _ => True)
    (fun sh gs h => ?_) (fun sh gs hs v c h _ _ => ⟨g, h, trivial⟩)
    (fun sh gs hs v c w h hget hplan => ?_) trivial attempts known past) fun _ _ _ _ _ => True.intro
  · obtain ⟨tokens, cas, hget, hcas, -⟩ := h.bucket
    exact ⟨tokens, cas, hget, hcas⟩
  · have hadd := add64_le v rule.2.tokensPerRefill
    simp only [refillPlan, Plan.put.injEq] at hplan
    subst hplan
    refine ⟨_, h.refill hg hget ?_ ?_, trivial⟩
    · split
      · exact Nat.le_refl _
      · omega
    · split
      · omega
      · exact hadd

/-- A call that knows the time of the last refill. -/
theorem keeps_claimRefill (attempts : ℕ) {rule : ℤ × LimitItem} (hid : rule.1 = ruleId)
    (hitem : rule.2 = item) {known : List (Fact Value)} {past lastUpdate cas now : ℕ}
    (hknown : (⟨.lastRefilled rule.1 rule.2.key, lastUpdate, cas⟩ : Fact Value) ∈ known)
    (hcas : cas ≠ 0) (hlast : lastUpdate ≤ now) (hnow : now ≤ past) (g : Ghost) :
    (claimRefill attempts rule lastUpdate cas now).Keeps (Inv ruleId item count since)
      (.refillToken attempts) (fun _ _ _ _ => True) known past g := by
  subst hid hitem
  unfold claimRefill
  split
  · exact True.intro
  · rename_i hdue
    intro sh gs hs hpast hfacts hinv
    split
    · -- the version is the one that was read, and so the time is
      rename_i haccepts
      have hget := eq_of_accepts hfacts hknown hcas haccepts
      exact ⟨_, hinv.claim _ hget (le_of_not_tooEarly hlast hdue) (Nat.le_trans hnow hpast),
        keeps_addTokens attempts rfl rfl _ _ (Nat.succ_pos _)⟩
    · exact True.intro

theorem keeps_refillRule (attempts : ℕ) {rule : ℤ × LimitItem}
    (hrule : rule.1 = ruleId → rule.2.key = item.key → rule.2 = item)
    (known : List (Fact Value)) (past : ℕ) (g : Ghost) :
    (refillRule attempts rule).Keeps (Inv ruleId item count since) (.refillToken attempts)
      (fun _ _ _ _ => True) known past g := by
  by_cases hours : rule.1 = ruleId ∧ rule.2.key = item.key
  · have hitem := hrule hours.1 hours.2
    rw [refillRule, Prog.Keeps]
    intro sh gs hs _ _ hinv
    obtain ⟨time, cas, hget, hcas, htime, -⟩ := hinv.last
    rw [← hours.1, ← hitem] at hget
    refine ⟨g, hinv, ?_⟩
    rw [hget]
    dsimp only
    rw [Prog.Keeps]
    refine fun sh₁ gs₁ hs₁ hpast₁ _ hinv₁ => ⟨g, hinv₁, ?_⟩
    exact keeps_claimRefill attempts hours.1 hitem (by simp [learn, hget]) hcas
      (Nat.le_trans htime hpast₁) (Nat.le_refl _) g
  · exact (Prog.keeps_of_apart (writesIn_refillRule attempts hours) _ known past g).mono
      fun _ _ _ _ _ => trivial

theorem keeps_refillToken (attempts : ℕ) {rules : List (ℤ × LimitItem)}
    (hrules : ∀ rule ∈ rules, rule.1 = ruleId → rule.2.key = item.key → rule.2 = item)
    (known : List (Fact Value)) (past : ℕ) (g : Ghost) :
    (refillToken attempts rules).Keeps (Inv ruleId item count since) (.refillToken attempts)
      (fun _ _ _ _ => True) known past g := by
  induction rules generalizing known past g with
  | nil => exact True.intro
  | cons rule rules ih =>
      simp only [List.mem_cons, forall_eq_or_imp] at hrules
      exact Prog.Keeps.seq (keeps_refillRule attempts hrules.1 known past g)
        fun known past _ g _ => ih hrules.2 known past g

end Calls

/-! ### Runs -/

section Runs

variable {ruleId : ℤ} {item : LimitItem} {count since : ℕ}

/-- What a call leaves: one that has admitted a request of the bucket has taken a token. -/
def Post (ruleId : ℤ) (item : LimitItem) (op : Op) (_ : List (Fact Value)) (_ : ℕ) (r : Answer)
    (g : Ghost) : Prop :=
  op = .getToken ruleId item.key → r = .admitted → 1 ≤ g.taken

theorem keeps_code {rules : List (ℤ × LimitItem)}
    (hrules : ∀ rule ∈ rules, rule.1 = ruleId → rule.2.key = item.key → rule.2 = item) (op : Op) :
    (code rules op).Keeps (Inv ruleId item count since) op (Post ruleId item op) [] 0 {} := by
  cases op with
  | getToken id key =>
      by_cases hours : id = ruleId ∧ key = item.key
      · obtain ⟨rfl, rfl⟩ := hours
        exact (keeps_getToken [] 0).mono fun _ _ _ _ h _ => h
      · refine (Prog.keeps_of_apart (writesIn_getToken hours) _ [] 0 {}).mono fun _ _ _ _ _ heq => ?_
        exact absurd (by simpa using heq) hours
  | refillToken attempts =>
      refine Prog.Keeps.seq (keeps_refillToken attempts hrules [] 0 {}) fun _ _ _ _ _ => ?_
      intro heq
      cases heq

theorem Inv.start {sh : Shared Value Op} {gs : List Ghost} (h : Inv ruleId item count since sh gs) :
    Inv ruleId item count since sh (gs ++ [({} : Ghost)]) := by
  obtain ⟨hbucket, hlast, hapart, hused⟩ := h
  exact ⟨by simpa using hbucket, hlast, hapart, by simpa using hused⟩

theorem Inv.tick {sh : Shared Value Op} {gs : List Ghost} (h : Inv ruleId item count since sh gs)
    (n : ℕ) : Inv ruleId item count since { sh with clock := sh.clock + n } gs := by
  obtain ⟨hbucket, ⟨time, cas, hget, hcas, htime, hlast⟩, hapart, hused⟩ := h
  exact ⟨hbucket, ⟨time, cas, hget, hcas, Nat.le_trans htime (Nat.le_add_right _ _), hlast⟩, hapart,
    hused⟩

end Runs

end Higress.WasmCpp.TokenBucket
