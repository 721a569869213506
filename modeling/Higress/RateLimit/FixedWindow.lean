import Mathlib
import Higress.Lib.GoString

/-!
The request phase of the cluster key rate limit. One script counts a request under all keys that it
matches, and the request goes on when no counter is above its threshold. A counter goes no further than
one above its threshold, and it is gone when its window is over; the next request that matches the key
opens another window.

The host runs the script as a whole, so that a run is the list of the requests in the order of their
scripts, each with the time of Redis in milliseconds.
-/

namespace Higress.RateLimit

open Lib

/-- A counter of Redis, with the time until which it is kept. -/
structure Counter where
  value : ℕ
  deadline : Option ℕ

abbrev Store := GoString → Option Counter

namespace Store

variable (s : Store) (now : ℕ) (key : GoString)

/-- What is not over yet. -/
def live : Option Counter := (s key).filter fun c => c.deadline.all (now ≤ ·)

/-- `tonumber(redis.call('get', key) or "0")` -/
def get : ℕ := ((s.live now key).map Counter.value).getD 0

/-- `ttl`, in rounded seconds. -/
def ttl : ℤ :=
  match s.live now key with
  | none => -2
  | some c => (c.deadline.map fun d => ((d - now + 500) / 1000 : ℕ)).elim (-1) (↑)

def incr : Store :=
  Function.update s key (some ((s.live now key).elim ⟨1, none⟩ fun c => { c with value := c.value + 1 }))

/-- `expire`, with a time in seconds. -/
def expire (window : ℕ) : Store :=
  Function.update s key ((s.live now key).map fun c => { c with deadline := some (now + 1000 * window) })

end Store

/-! ### The request phase -/

structure MatchedRule where
  key : GoString
  count : ℕ
  window : ℕ

/-- One entry of the reply. -/
structure Tuple where
  threshold : ℕ
  current : ℕ
  ttl : ℤ

/-- One round of the loop of the script. -/
def countRule (now : ℕ) (s : Store) (rule : MatchedRule) : Store × Tuple :=
  let ttl := if s.ttl now rule.key < 0 then (rule.window : ℤ) else s.ttl now rule.key
  if s.get now rule.key > rule.count then (s, ⟨rule.count, s.get now rule.key, ttl⟩)
  else
    let incremented := s.incr now rule.key
    let current := incremented.get now rule.key
    let s := if current = 1 then incremented.expire now rule.key rule.window else incremented
    (s, ⟨rule.count, current, s.ttl now rule.key⟩)

def multiKeyFixedWindowScript (now : ℕ) : Store → List MatchedRule → Store × List Tuple
  | s, [] => (s, [])
  | s, rule :: rules =>
      let counted := countRule now s rule
      let rest := multiKeyFixedWindowScript now counted.1 rules
      (rest.1, counted.2 :: rest.2)

structure LimitContext where
  count : ℕ
  remaining : ℤ
  reset : ℤ

/-- The callback of the script: the request is rejected with the first rule that triggers, or it is
resumed. -/
def onReply (tuples : List Tuple) : Option LimitContext :=
  (tuples.find? fun t => t.current > t.threshold).map fun t =>
    ⟨t.threshold, t.threshold - t.current, t.ttl⟩

/-- `onHttpRequestHeaders` with its callback. Without a rule there is no call of Redis. -/
def onHttpRequestHeaders (now : ℕ) (s : Store) (matched : List MatchedRule) :
    Store × Option LimitContext :=
  if matched = [] then (s, none)
  else
    let reply := multiKeyFixedWindowScript now s matched
    (reply.1, onReply reply.2)

/-! ### Runs -/

/-- The threshold and the window that a key is always used with. -/
structure Limits where
  threshold : GoString → ℕ
  window : GoString → ℕ

/-- A request: when its script runs, and the keys of the rules that it matches. -/
structure Request where
  time : ℕ
  keys : List GoString

variable (limits : Limits)

def Limits.rule (key : GoString) : MatchedRule := ⟨key, limits.threshold key, limits.window key⟩

def serve (s : Store) (r : Request) : Store × Option LimitContext :=
  onHttpRequestHeaders r.time s (r.keys.map limits.rule)

def storeAfter (run : List Request) : Store := run.foldl (fun s r => (serve limits s r).1) fun _ => none

/-- Whether a request goes on, behind the requests of a run. -/
def admitted (before : List Request) (r : Request) : Prop :=
  (serve limits (storeAfter limits before) r).2 = none

instance decidableAdmitted (before : List Request) (r : Request) : Decidable (admitted limits before r) :=
  inferInstanceAs (Decidable (_ = none))

/-- A window of a key: when it was opened, and how often the key was matched in it. -/
structure Window where
  start : ℕ
  hits : ℕ

/-- A request that matches the key falls in the window that is open, or opens one. -/
def Limits.nextWindow (key : GoString) (window : Option Window) (r : Request) : Option Window :=
  if key ∈ r.keys then
    match window with
    | some w =>
        if r.time ≤ w.start + 1000 * limits.window key then some ⟨w.start, w.hits + r.keys.count key⟩
        else some ⟨r.time, r.keys.count key⟩
    | none => some ⟨r.time, r.keys.count key⟩
  else window

/-- The last window of a key. -/
def windowOf (key : GoString) (run : List Request) : Option Window :=
  run.foldl (limits.nextWindow key) none

/-- The requests of a run, each with those before it. -/
def places : List Request → List Request → List (List Request × Request)
  | _, [] => []
  | before, r :: rest => (before, r) :: places (before ++ [r]) rest

/-- The request goes on, and matches the key in the window that was opened at the time. -/
def AdmittedIn (key : GoString) (start : ℕ) (place : List Request × Request) : Prop :=
  key ∈ place.2.keys ∧ admitted limits place.1 place.2 ∧
    (windowOf limits key (place.1 ++ [place.2])).map Window.start = some start

instance decidableAdmittedIn (key : GoString) (start : ℕ) (place : List Request × Request) :
    Decidable (AdmittedIn limits key start place) :=
  inferInstanceAs (Decidable (_ ∧ _ ∧ _))

/-- How many requests go on that match a key in one window of it. -/
def admittedIn (key : GoString) (start : ℕ) (run : List Request) : ℕ :=
  ((places [] run).filter fun place => AdmittedIn limits key start place).length

/-! ### Windows -/

section Windows

variable {limits} {key other : GoString} {window : Option Window} {time : ℕ}

theorem nextWindow_of_notMem {keys : List GoString} (h : key ∉ keys) :
    limits.nextWindow key window ⟨time, keys⟩ = window := if_neg h

theorem nextWindow_open {w : Window} (h : time ≤ w.start + 1000 * limits.window key)
    (keys : List GoString) : limits.nextWindow key (some w) ⟨time, keys⟩ =
      some ⟨w.start, w.hits + keys.count key⟩ := by
  by_cases hmem : key ∈ keys
  · simp [Limits.nextWindow, hmem, h]
  · simp [Limits.nextWindow, hmem, List.count_eq_zero_of_not_mem hmem]

theorem nextWindow_new {keys : List GoString} (hmem : key ∈ keys)
    (h : ∀ w ∈ window, w.start + 1000 * limits.window key < time) :
    limits.nextWindow key window ⟨time, keys⟩ = some ⟨time, keys.count key⟩ := by
  cases window with
  | none => simp [Limits.nextWindow, hmem]
  | some w => simp [Limits.nextWindow, hmem, h w rfl]

/-- A window is open at a time, or a match opens one. -/
theorem open_or_new (limits : Limits) (key : GoString) (window : Option Window) (time : ℕ) :
    (∃ w, window = some w ∧ time ≤ w.start + 1000 * limits.window key) ∨
      ∀ w ∈ window, w.start + 1000 * limits.window key < time := by
  cases window with
  | none => exact .inr (by simp)
  | some w =>
      rcases Nat.lt_or_ge (w.start + 1000 * limits.window key) time with h | h
      · right
        simpa using h
      · exact .inl ⟨w, rfl, h⟩

/-- A key matched several times by a request is matched one time after the other. -/
theorem nextWindow_cons (keys : List GoString) :
    limits.nextWindow key window ⟨time, other :: keys⟩ =
      limits.nextWindow key (limits.nextWindow key window ⟨time, [other]⟩) ⟨time, keys⟩ := by
  by_cases hother : other = key
  · subst hother
    rcases open_or_new limits other window time with ⟨w, rfl, h⟩ | h
    · rw [nextWindow_open h, nextWindow_open h, 
        @nextWindow_open limits other time ⟨w.start, w.hits + [other].count other⟩ h]
      simp only [List.count_cons_self, List.count_nil]
      rw [Nat.add_comm (keys.count other), Nat.zero_add, Nat.add_assoc]
    · rw [nextWindow_new (by simp) h, nextWindow_new (by simp) h,
        @nextWindow_open limits other time ⟨time, [other].count other⟩ (Nat.le_add_right time _)]
      simp only [List.count_cons_self, List.count_nil]
      rw [Nat.add_comm (keys.count other), Nat.zero_add]
  · have hne : key ∉ [other] := by simpa using Ne.symm hother
    rw [nextWindow_of_notMem hne]
    simp only [Limits.nextWindow, List.mem_cons, Ne.symm hother, false_or,
      List.count_cons_of_ne hother]

def hitsOf (window : Option Window) : ℕ := (window.map Window.hits).getD 0

/-- The matches of a request behind its first one only add to the window. -/
theorem hitsOf_le_cons (keys : List GoString) :
    hitsOf (limits.nextWindow key window ⟨time, [key]⟩) ≤
      hitsOf (limits.nextWindow key window ⟨time, key :: keys⟩) := by
  have hcount : [key].count key ≤ (key :: keys).count key := by simp
  rcases open_or_new limits key window time with ⟨w, rfl, hopen⟩ | hnew
  · rw [nextWindow_open hopen, nextWindow_open hopen]
    exact Nat.add_le_add_left hcount w.hits
  · rw [nextWindow_new (by simp) hnew, nextWindow_new (by simp) hnew]
    exact hcount

end Windows

/-! ### The script -/

section Script

variable {limits} {key : GoString} {s : Store} {window : Option Window} {now : ℕ}

/-- The counter of a key is the one of its window. -/
structure Tells (limits : Limits) (key : GoString) (s : Store) (window : Option Window) : Prop where
  counter : s key = window.map fun w =>
    ⟨min w.hits (limits.threshold key + 1), some (w.start + 1000 * limits.window key)⟩
  hit : ∀ w ∈ window, 0 < w.hits

theorem Tells.live_open {w : Window} (h : Tells limits key s (some w))
    (hopen : now ≤ w.start + 1000 * limits.window key) : s.live now key =
      some ⟨min w.hits (limits.threshold key + 1), some (w.start + 1000 * limits.window key)⟩ := by
  rw [Store.live, h.counter]
  simp [Option.filter, hopen]

theorem Tells.live_new (h : Tells limits key s window)
    (hnew : ∀ w ∈ window, w.start + 1000 * limits.window key < now) : s.live now key = none := by
  rw [Store.live, h.counter]
  cases window with
  | none => rfl
  | some w =>
      have := hnew w rfl
      simp [Option.filter, not_le.mpr this]

theorem countRule_other {rule : MatchedRule} (h : key ≠ rule.key) :
    (countRule now s rule).1 key = s key := by
  simp only [countRule]
  split
  · rfl
  · split
    · simp [Store.expire, Store.incr, h]
    · simp [Store.incr, h]

/-- A rule counts one match of its key, and its entry tells whether the threshold is passed. -/
theorem Tells.countRule_self (h : Tells limits key s window) :
    Tells limits key (countRule now s (limits.rule key)).1
        (limits.nextWindow key window ⟨now, [key]⟩) ∧
      ((countRule now s (limits.rule key)).2.current ≤ (countRule now s (limits.rule key)).2.threshold ↔
        hitsOf (limits.nextWindow key window ⟨now, [key]⟩) ≤ limits.threshold key) := by
  rcases open_or_new limits key window now with ⟨w, rfl, hopen⟩ | hnew
  · have hlive := h.live_open hopen
    have hpos := h.hit w rfl
    have hget : s.get now key = min w.hits (limits.threshold key + 1) := by
      rw [Store.get, hlive]
      rfl
    rw [nextWindow_open hopen]
    rcases Nat.lt_or_ge (limits.threshold key) w.hits with hover | hfree
    · -- The counter is one above the threshold, and stays there.
      have hget' : s.get now key = limits.threshold key + 1 := by
        rw [hget]
        exact Nat.min_eq_right hover
      have hstep : (countRule now s (limits.rule key)).1 = s ∧
          (countRule now s (limits.rule key)).2.current = limits.threshold key + 1 ∧
          (countRule now s (limits.rule key)).2.threshold = limits.threshold key := by
        simp [countRule, Limits.rule, hget']
      rw [hstep.1, hstep.2.1, hstep.2.2]
      refine ⟨⟨?_, by simp⟩, ?_⟩
      · rw [h.counter]
        simp only [Option.map_some, List.count_cons_self, List.count_nil]
        rw [Nat.min_eq_right hover, Nat.min_eq_right (by omega)]
      · simp [hitsOf]
        omega
    · have hvalue : min w.hits (limits.threshold key + 1) = w.hits := Nat.min_eq_left (by omega)
      rw [hvalue] at hget hlive
      have hincr : (s.incr now key).live now key =
          some ⟨w.hits + 1, some (w.start + 1000 * limits.window key)⟩ := by
        rw [Store.live, Store.incr, Function.update_self, hlive]
        simp [Option.filter, hopen]
      have hget' : (s.incr now key).get now key = w.hits + 1 := by
        rw [Store.get, hincr]
        rfl
      have hstep : countRule now s (limits.rule key) =
          (s.incr now key, ⟨limits.threshold key, w.hits + 1, (s.incr now key).ttl now key⟩) := by
        simp [countRule, Limits.rule, hget, hget', hfree, hpos.ne']
      rw [hstep]
      refine ⟨⟨?_, by simp⟩, ?_⟩
      · change s.incr now key key = _
        rw [Store.incr, Function.update_self, hlive]
        simp only [Option.map_some, List.count_cons_self, List.count_nil, Option.elim]
        rw [Nat.min_eq_left (by omega)]
      · simp [hitsOf]
  · have hlive := h.live_new hnew
    have hincr : (s.incr now key).live now key = some ⟨1, none⟩ := by
      rw [Store.live, Store.incr, Function.update_self, hlive]
      rfl
    have hget : s.get now key = 0 := by
      rw [Store.get, hlive]
      rfl
    have hget' : (s.incr now key).get now key = 1 := by
      rw [Store.get, hincr]
      rfl
    have hstep : countRule now s (limits.rule key) = ((s.incr now key).expire now key (limits.window key),
        ⟨limits.threshold key, 1,
          ((s.incr now key).expire now key (limits.window key)).ttl now key⟩) := by
      simp [countRule, Limits.rule, hget, hget']
    have hcounter : (s.incr now key).expire now key (limits.window key) key =
        some ⟨1, some (now + 1000 * limits.window key)⟩ := by
      simp [Store.expire, hincr]
    rw [hstep, nextWindow_new (by simp) hnew]
    refine ⟨⟨?_, by simp⟩, ?_⟩
    · change (s.incr now key).expire now key (limits.window key) key = _
      rw [hcounter]
      simp
    · simp [hitsOf]

/-- One rule of a request, for all keys. -/
theorem tells_countRule {windows : GoString → Option Window}
    (h : ∀ key, Tells limits key s (windows key)) (other key : GoString) :
    Tells limits key (countRule now s (limits.rule other)).1
      (limits.nextWindow key (windows key) ⟨now, [other]⟩) := by
  by_cases hkey : key = other
  · subst hkey
    exact (h key).countRule_self.1
  · rw [nextWindow_of_notMem (by simpa using hkey)]
    have hsame := @countRule_other key s now (limits.rule other) hkey
    exact ⟨by rw [hsame]; exact (h key).counter, (h key).hit⟩

/-- The script counts every match of a request, and its entries are within their thresholds exactly
where the windows are, with the matches of this request. -/
theorem script_spec {windows : GoString → Option Window} (h : ∀ key, Tells limits key s (windows key))
    (keys : List GoString) :
    (∀ key, Tells limits key (multiKeyFixedWindowScript now s (keys.map limits.rule)).1
      (limits.nextWindow key (windows key) ⟨now, keys⟩)) ∧
    ((∀ t ∈ (multiKeyFixedWindowScript now s (keys.map limits.rule)).2, t.current ≤ t.threshold) ↔
      ∀ key ∈ keys, hitsOf (limits.nextWindow key (windows key) ⟨now, keys⟩) ≤ limits.threshold key) := by
  induction keys generalizing s windows with
  | nil => exact ⟨fun key => by rw [nextWindow_of_notMem (by simp)]; exact h key, by simp [multiKeyFixedWindowScript]⟩
  | cons other keys ih =>
      have hcons (key : GoString) := @nextWindow_cons limits key other (windows key) now keys
      obtain ⟨hstore, hentries⟩ := ih (tells_countRule h other)
      have hfirst := (@Tells.countRule_self limits other s (windows other) now (h other)).2
      refine ⟨fun key => hcons key ▸ hstore key, ?_⟩
      rw [List.map_cons, multiKeyFixedWindowScript]
      simp only [List.forall_mem_cons, hentries, hfirst, ← hcons]
      constructor
      · rintro ⟨hother, hrest⟩
        refine ⟨?_, hrest⟩
        by_cases hmem : other ∈ keys
        · exact hrest other hmem
        · rw [nextWindow_cons, nextWindow_of_notMem hmem]
          exact hother
      · rintro ⟨hother, hrest⟩
        exact ⟨(hitsOf_le_cons keys).trans hother, hrest⟩

theorem onReply_eq_none_iff (tuples : List Tuple) :
    onReply tuples = none ↔ ∀ t ∈ tuples, t.current ≤ t.threshold := by
  simp [onReply, List.find?_eq_none]

/-- A request counts its matches, and it goes on exactly where they stay within the thresholds. -/
theorem serve_spec {windows : GoString → Option Window} (h : ∀ key, Tells limits key s (windows key))
    (r : Request) :
    (∀ key, Tells limits key (serve limits s r).1 (limits.nextWindow key (windows key) r)) ∧
    ((serve limits s r).2 = none ↔
      ∀ key ∈ r.keys, hitsOf (limits.nextWindow key (windows key) r) ≤ limits.threshold key) := by
  obtain ⟨time, keys⟩ := r
  cases keys with
  | nil => exact ⟨fun key => by rw [nextWindow_of_notMem (by simp)]; exact h key, by simp [serve, onHttpRequestHeaders]⟩
  | cons other keys =>
      have hne : (other :: keys).map limits.rule ≠ [] := by simp
      rw [serve, onHttpRequestHeaders, if_neg hne]
      obtain ⟨hstore, hentries⟩ := @script_spec limits s time windows h (other :: keys)
      exact ⟨hstore, (onReply_eq_none_iff _).trans hentries⟩

end Script

/-! ### The limit -/

section Limit

variable {limits} {key : GoString}

theorem windowOf_concat (run : List Request) (r : Request) :
    windowOf limits key (run ++ [r]) = limits.nextWindow key (windowOf limits key run) r := by
  rw [windowOf, List.foldl_append]
  rfl

theorem tells_storeAfter (run : List Request) (key : GoString) :
    Tells limits key (storeAfter limits run) (windowOf limits key run) := by
  induction run using List.reverseRecOn generalizing key with
  | nil => exact ⟨rfl, by simp [windowOf]⟩
  | append_singleton run r ih =>
      rw [storeAfter, List.foldl_append, windowOf_concat]
      exact (serve_spec ih r).1 key

/-- A request goes on exactly where its windows, with its own matches, stay within the thresholds. -/
theorem admitted_iff (before : List Request) (r : Request) : admitted limits before r ↔
    ∀ key ∈ r.keys, hitsOf (windowOf limits key (before ++ [r])) ≤ limits.threshold key := by
  simp only [windowOf_concat]
  exact (serve_spec (tells_storeAfter before) r).2

theorem places_concat (before run : List Request) (r : Request) :
    places before (run ++ [r]) = places before run ++ [(before ++ run, r)] := by
  induction run generalizing before with
  | nil => simp [places]
  | cons r' run ih => simp [places, ih]

/-- The requests that went on so far are matches of their window. -/
structure Counted (limits : Limits) (key : GoString) (run : List Request) : Prop where
  le : ∀ start, admittedIn limits key start run ≤ limits.threshold key
  current : ∀ w ∈ windowOf limits key run, admittedIn limits key w.start run ≤ w.hits
  later : ∀ start, (∀ w ∈ windowOf limits key run, w.start < start) → admittedIn limits key start run = 0

theorem counted (key : GoString) (run : List Request) : Counted limits key run := by
  induction run using List.reverseRecOn with
  | nil => exact ⟨by simp [admittedIn, places], by simp [windowOf], by simp [admittedIn, places]⟩
  | append_singleton run r ih =>
      have hconcat (start : ℕ) : admittedIn limits key start (run ++ [r]) =
          admittedIn limits key start run + if AdmittedIn limits key start (run, r) then 1 else 0 := by
        rw [admittedIn, places_concat, List.filter_append, List.length_append, ← admittedIn]
        congr 1
        by_cases hin : AdmittedIn limits key start (run, r)
        · simp [hin]
        · simp [hin]
      by_cases hmem : key ∈ r.keys
      · have hcount : 0 < r.keys.count key := List.count_pos_iff.mpr hmem
        obtain ⟨w, hw, hstart⟩ : ∃ w, windowOf limits key (run ++ [r]) = some w ∧
            admittedIn limits key w.start run + 1 ≤ w.hits ∧
            ∀ w' ∈ windowOf limits key run, w'.start ≤ w.start := by
          rw [windowOf_concat]
          rcases open_or_new limits key (windowOf limits key run) r.time with ⟨w, hrun, hopen⟩ | hnew
          · refine ⟨_, hrun ▸ nextWindow_open hopen r.keys, ?_, ?_⟩
            · have := ih.current w hrun
              change admittedIn limits key w.start run + 1 ≤ w.hits + r.keys.count key
              omega
            · intro w' hw'
              rw [hrun, Option.mem_some_iff] at hw'
              rw [hw']
          · refine ⟨_, nextWindow_new hmem hnew, ?_, ?_⟩
            · have hzero := ih.later r.time fun w' hw' => by
                have := hnew w' hw'
                omega
              change admittedIn limits key r.time run + 1 ≤ r.keys.count key
              omega
            · intro w' hw'
              have := hnew w' hw'
              change _ ≤ r.time
              omega
        have hin (start : ℕ) : AdmittedIn limits key start (run, r) →
            start = w.start ∧ w.hits ≤ limits.threshold key := by
          rintro ⟨-, hadmitted, hstart'⟩
          have hhits := (admitted_iff run r).mp hadmitted key hmem
          rw [hw] at hhits
          dsimp only at hstart'
          rw [hw] at hstart'
          exact ⟨(Option.some.inj hstart').symm, hhits⟩
        refine ⟨fun start => ?_, ?_, ?_⟩
        · have hle := ih.le start
          rw [hconcat]
          split
          · rename_i hplace
            obtain ⟨rfl, hhits⟩ := hin start hplace
            omega
          · omega
        · rw [hw]
          rintro w' hw'
          obtain rfl : w = w' := Option.some.inj hw'
          rw [hconcat]
          split <;> omega
        · intro start hlater
          have hlt := hlater w hw
          have hzero := ih.later start fun w' hw' => by
            have := hstart.2 w' hw'
            omega
          rw [hconcat, hzero, if_neg]
          intro hplace
          have := (hin start hplace).1
          omega
      · have hsame : windowOf limits key (run ++ [r]) = windowOf limits key run := by
          rw [windowOf_concat]
          exact nextWindow_of_notMem hmem
        have hnot (start : ℕ) : ¬ AdmittedIn limits key start (run, r) := fun hin => hmem hin.1
        simp only [hnot, if_false, Nat.add_zero] at hconcat
        exact ⟨by simpa [hconcat] using ih.le, by simpa [hconcat, hsame] using ih.current,
          by simpa [hconcat, hsame] using ih.later⟩

/-- In every run: of the requests that match a key in one window, no more go on than its threshold;
no counter is more than one above its threshold; and a request is rejected only where a key that it
matches was matched more often than its threshold in its window, with the matches of this request. -/
theorem fixedWindow_limits (limits : Limits) (run : List Request) :
    (∀ key start, admittedIn limits key start run ≤ limits.threshold key) ∧
    (∀ key c, storeAfter limits run key = some c → c.value ≤ limits.threshold key + 1) ∧
    ∀ before r after, run = before ++ r :: after → ¬ admitted limits before r →
      ∃ key ∈ r.keys, limits.threshold key < hitsOf (windowOf limits key (before ++ [r])) := by
  refine ⟨fun key => (counted key run).le, ?_, ?_⟩
  · intro key c hc
    rw [(tells_storeAfter run key).counter] at hc
    obtain ⟨w, -, rfl⟩ := Option.map_eq_some_iff.mp hc
    exact Nat.min_le_right _ _
  · intro before r after _ hrejected
    rw [admitted_iff] at hrejected
    push Not at hrejected
    exact hrejected

/-- The window of a key is that of the requests that match it. -/
theorem windowOf_filter {p : Request → Prop} [DecidablePred p] (hp : ∀ r, key ∈ r.keys → p r)
    (run : List Request) : windowOf limits key (run.filter p) = windowOf limits key run := by
  induction run using List.reverseRecOn with
  | nil => rfl
  | append_singleton run r ih =>
      rw [List.filter_append, windowOf_concat, ← ih]
      by_cases hr : p r
      · rw [List.filter_singleton, decide_eq_true hr, cond_true, windowOf_concat]
      · rw [List.filter_singleton, decide_eq_false hr, cond_false, List.append_nil]
        exact (nextWindow_of_notMem fun hmem => hr (hp r hmem)).symm

/-- Clients are apart: whether a request goes on depends only on the earlier requests that share a key
with it, and the counter of a key only on the requests that match the key. -/
theorem admitted_sharing (limits : Limits) (before : List Request) (r : Request) :
    (admitted limits before r ↔
      admitted limits (before.filter fun r' => ∃ key ∈ r.keys, key ∈ r'.keys) r) ∧
    ∀ key, storeAfter limits before key =
      storeAfter limits (before.filter fun r' => key ∈ r'.keys) key := by
  refine ⟨?_, fun key => ?_⟩
  · rw [admitted_iff, admitted_iff]
    refine forall₂_congr fun key hkey => ?_
    rw [windowOf_concat, windowOf_concat, windowOf_filter fun r' hmem => ⟨key, hkey, hmem⟩]
  · rw [(tells_storeAfter before key).counter, (tells_storeAfter _ key).counter,
      windowOf_filter fun _ => id]

end Limit

end Higress.RateLimit
