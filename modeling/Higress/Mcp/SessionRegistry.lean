import Mathlib
import Higress.Lib.Act
import Higress.Lib.GoString

/-!
The session registry of the MCP session filter (`mcp-session/common/session_registry.go`)
and the name under which the rules of `match.go` own their sessions.

A session is a key of Redis that is bound to a server and set again, with the full
lifetime, each time it is validated. Server names and session ids are arbitrary
strings, so the key spells each of them with its length in front; no two pairs share a
key, and what happens to one pair is not seen by another.

A rule without an explicit server name owns its sessions under a spelling of its match
fields. That spelling is injective, but it lives among the explicit names: a rule whose
explicit name is the spelling of another rule shares the sessions of that rule.
-/

namespace Higress.Mcp.SessionRegistry

open Lib

/-! ### The registry -/

/-- `ErrKeyNotExist`, an error of the client, or an error wrapped in a text. -/
inductive GoError
  | keyNotExist
  | client (text : GoString)
  | wrap (text : GoString) (inner : GoError)

/-- `errors.Is(err, ErrKeyNotExist)`. -/
def GoError.isKeyNotExist : GoError → Bool
  | keyNotExist => true
  | client _ => false
  | wrap _ inner => inner.isKeyNotExist

/-- `sessionRegistryClient`, over the states of whatever is behind it. -/
structure Client (σ : Type) where
  set : GoString → GoString → ℕ → Act GoError σ Unit
  get : GoString → Act GoError σ GoString

/-- `sessionTimeout`, in nanoseconds. -/
def sessionTimeout : ℕ := 24 * 60 * 60 * 1000000000

/-- `strconv.Itoa` of a length. -/
def itoa (n : ℕ) : GoString := (Nat.toDigits 10 n).map fun d => d.toNat.toUInt8

def encodeKeyComponent (value : GoString) : GoString := itoa value.length ++ bytes ":" ++ value

def getSessionRegistryKey (serverName sessionID : GoString) : GoString :=
  bytes "mcp-server-session:v1:" ++ encodeKeyComponent serverName ++ bytes ":" ++
    encodeKeyComponent sessionID

section Registry

variable {σ : Type} (r : Client σ)

def registerSession (serverName sessionID : GoString) : Act GoError σ Unit := fun s =>
  match r.set (getSessionRegistryKey serverName sessionID) serverName sessionTimeout s with
  | (.error err, s) => (.error (.wrap (bytes "failed to register MCP session") err), s)
  | (.ok _, s) => (.ok (), s)

def validateSession (serverName sessionID : GoString) : Act GoError σ Bool := fun s =>
  match r.get (getSessionRegistryKey serverName sessionID) s with
  | (.error err, s) =>
      if err.isKeyNotExist then (.ok false, s)
      else (.error (.wrap (bytes "failed to validate MCP session") err), s)
  | (.ok value, s) =>
      if value ≠ serverName then (.ok false, s)
      -- sliding validity: a session in use is set again with the full lifetime
      else match r.set (getSessionRegistryKey serverName sessionID) value sessionTimeout s with
        | (.error err, s) => (.error (.wrap (bytes "failed to refresh MCP session") err), s)
        | (.ok _, s) => (.ok true, s)

end Registry

/-! ### Redis as a map with expiry -/

/-- What each key holds and the last moment at which it does. -/
structure Redis where
  now : ℕ
  cells : GoString → Option (GoString × ℕ)

namespace Redis

def empty : Redis := ⟨0, fun _ => none⟩

def wait (s : Redis) (n : ℕ) : Redis := { s with now := s.now + n }

def put (s : Redis) (key value : GoString) (expiration : ℕ) : Redis :=
  { s with cells := Function.update s.cells key (some (value, s.now + expiration)) }

def read (s : Redis) (key : GoString) : Option GoString :=
  (s.cells key).bind fun cell => if s.now ≤ cell.2 then some cell.1 else none

end Redis

def redisClient : Client Redis where
  set key value expiration := Act.update fun s => s.put key value expiration
  get key := fun s =>
    match s.read key with
    | none => (.error .keyNotExist, s)
    | some value => (.ok value, s)

/-! ### Histories -/

structure Session where
  serverName : GoString
  sessionID : GoString
deriving DecidableEq

inductive Op
  | register (session : Session)
  | validate (session : Session)
deriving DecidableEq

def Op.session : Op → Session
  | register session => session
  | validate session => session

/-- A call, and the time that passes before it. -/
structure Event where
  delay : ℕ
  op : Op

/-- A call that was made: when, and whether it succeeded. -/
structure Entry where
  time : ℕ
  op : Op
  ok : Bool

structure World where
  redis : Redis
  log : List Entry

/-- Whether the call succeeds, and the server after it. -/
def call (s : Redis) : Op → Bool × Redis
  | .register p =>
      match registerSession redisClient p.serverName p.sessionID s with
      | (.ok _, s) => (true, s)
      | (.error _, s) => (false, s)
  | .validate p =>
      match validateSession redisClient p.serverName p.sessionID s with
      | (.ok valid, s) => (valid, s)
      | (.error _, s) => (false, s)

def World.step (w : World) (e : Event) : World :=
  let s := w.redis.wait e.delay
  ⟨(call s e.op).2, w.log ++ [⟨s.now, e.op, (call s e.op).1⟩]⟩

def run (es : List Event) : World := es.foldl World.step ⟨Redis.empty, []⟩

/-- Whether the session is valid after a history and a further delay. -/
def answer (es : List Event) (p : Session) (delay : ℕ) : Bool :=
  (call ((run es).redis.wait delay) (.validate p)).1

/-! ### No two pairs share a key -/

theorem toNat_lt_of_isDigit {c : Char} (h : c.isDigit = true) : 48 ≤ c.toNat ∧ c.toNat < 58 := by
  simp only [Char.isDigit, Bool.and_eq_true, decide_eq_true_eq, ge_iff_le] at h
  have hlow : 48 ≤ c.toNat := h.1
  have hhigh : c.toNat ≤ 57 := h.2
  omega

theorem colon_notMem_itoa (n : ℕ) : (58 : UInt8) ∉ itoa n := by
  intro hmem
  obtain ⟨d, hd, h⟩ := List.mem_map.mp hmem
  have hdigit := toNat_lt_of_isDigit (Nat.isDigit_of_mem_toDigits (by norm_num) (by norm_num) hd)
  have hval : d.toNat.toUInt8.toNat = 58 := by rw [h]; rfl
  simp only [Nat.toUInt8, UInt8.toNat_ofNat'] at hval
  omega

/-- The digits are read back from the text. -/
theorem itoa_injective : Function.Injective itoa := by
  have hback (n : ℕ) : (itoa n).map (fun b => Char.ofNat b.toNat) = Nat.toDigits 10 n := by
    rw [itoa, List.map_map]
    conv_rhs => rw [← List.map_id (Nat.toDigits 10 n)]
    apply List.map_congr_left
    intro d hd
    have hdigit := toNat_lt_of_isDigit (Nat.isDigit_of_mem_toDigits (by norm_num) (by norm_num) hd)
    have hval : d.toNat.toUInt8.toNat = d.toNat := by
      simp only [Nat.toUInt8, UInt8.toNat_ofNat']
      omega
    simp [hval]
  intro m n h
  have hdigits : Nat.toDigits 10 m = Nat.toDigits 10 n := by rw [← hback m, ← hback n, h]
  rw [← Nat.ofDigitChars_toDigits (b := 10) (n := m) (by norm_num) (by norm_num), hdigits,
    Nat.ofDigitChars_toDigits (by norm_num) (by norm_num)]

/-- A component ends where its length says, whatever follows it. -/
theorem encodeKeyComponent_append_inj {a b x y : GoString}
    (h : encodeKeyComponent a ++ x = encodeKeyComponent b ++ y) : a = b ∧ x = y := by
  have hcolon : bytes ":" = [58] := by decide
  have h' : itoa a.length ++ 58 :: (a ++ x) = itoa b.length ++ 58 :: (b ++ y) := by
    simpa [encodeKeyComponent, hcolon] using h
  obtain ⟨hlen, hrest⟩ :=
    append_cons_inj_of_notMem (colon_notMem_itoa _) (colon_notMem_itoa _) h'
  exact List.append_inj hrest (itoa_injective hlen)

/-- The key of a session. -/
def Session.key (p : Session) : GoString := getSessionRegistryKey p.serverName p.sessionID

theorem Session.key_injective : Function.Injective Session.key := by
  intro p q h
  simp only [key, getSessionRegistryKey, List.append_assoc] at h
  obtain ⟨hserver, hrest⟩ := encodeKeyComponent_append_inj (List.append_cancel_left h)
  have hid : encodeKeyComponent p.sessionID ++ [] = encodeKeyComponent q.sessionID ++ [] := by
    simpa using List.append_cancel_left hrest
  obtain ⟨hsession, -⟩ := encodeKeyComponent_append_inj hid
  cases p
  cases q
  simp_all

/-! ### What a call does -/

theorem call_register (s : Redis) (p : Session) :
    call s (.register p) = (true, s.put p.key p.serverName sessionTimeout) := rfl

theorem call_validate (s : Redis) (p : Session) :
    call s (.validate p) =
      if s.read p.key = some p.serverName then (true, s.put p.key p.serverName sessionTimeout)
      else (false, s) := by
  simp only [call, validateSession, redisClient]
  rw [← Session.key]
  cases hread : s.read p.key with
  | none => simp [GoError.isKeyNotExist]
  | some value =>
      by_cases hvalue : value = p.serverName
      · simp [hvalue, Act.update]
      · simp [hvalue]

theorem cells_put (s : Redis) (p q : Session) (value : GoString) (n : ℕ) :
    (s.put p.key value n).cells q.key = if q = p then some (value, s.now + n) else s.cells q.key := by
  by_cases h : q = p
  · simp [Redis.put, h]
  · have hkey : q.key ≠ p.key := fun hkey => h (Session.key_injective hkey)
    simp [Redis.put, Function.update_of_ne hkey, h]

@[simp] theorem now_call (s : Redis) (op : Op) : (call s op).2.now = s.now := by
  cases op with
  | register p => rfl
  | validate p =>
      rw [call_validate]
      split <;> rfl

/-- A call leaves the other sessions alone. -/
theorem cells_call_of_ne (s : Redis) (op : Op) {p : Session} (h : op.session ≠ p) :
    (call s op).2.cells p.key = s.cells p.key := by
  have hne (q : Session) (hq : op.session = q) : ¬ p = q := fun he => h (hq.trans he.symm)
  cases op with
  | register q => simp [call_register, cells_put, hne q rfl]
  | validate q =>
      rw [call_validate]
      split
      · simp [cells_put, hne q rfl]
      · rfl

/-! ### A session is valid as long as it is used -/

/-- The entry registers the session or validates it. -/
def Entry.uses (p : Session) (e : Entry) : Bool := e.op.session = p && e.ok

/-- The session was registered, and since then no two uses in a row are further apart
than a session lives, up to the moment `t`. -/
def Unbroken (log : List Entry) (p : Session) (t : ℕ) : Prop :=
  ∃ before e after, log = before ++ e :: after ∧ e.op = .register p ∧
    List.IsChain (fun t u => u ≤ t + sessionTimeout)
      ((e :: after.filter (Entry.uses p)).map Entry.time ++ [t])

/-- A cell holds the session until a lifetime after its last use. -/
structure Tracks (w : World) (p : Session) : Prop where
  cell : w.redis.cells p.key = ((w.log.filter (Entry.uses p)).getLast?).map fun e =>
    (p.serverName, e.time + sessionTimeout)
  unbroken : ∀ e ∈ (w.log.filter (Entry.uses p)).getLast?, Unbroken w.log p e.time
  registered : ∀ e ∈ w.log, e.op = .register p → e.ok = true

/-- A validation succeeds while the last use is recent. -/
theorem Tracks.read_eq {w : World} {p : Session} (hw : Tracks w p) (n : ℕ) :
    (w.redis.wait n).read p.key = some p.serverName ↔
      ∃ e ∈ (w.log.filter (Entry.uses p)).getLast?, w.redis.now + n ≤ e.time + sessionTimeout := by
  simp only [Redis.read, Redis.wait, hw.cell]
  cases (w.log.filter (Entry.uses p)).getLast? with
  | none => simp
  | some e => by_cases h : w.redis.now + n ≤ e.time + sessionTimeout <;> simp [h]

/-- The last use comes after the registration, or is it. -/
theorem getLast?_uses {before after : List Entry} {e : Entry} {p : Session} (he : e.uses p = true) :
    ((before ++ e :: after).filter (Entry.uses p)).getLast? =
      some ((e :: after.filter (Entry.uses p)).getLast (by simp)) := by
  rw [List.filter_append, List.filter_cons_of_pos he, List.getLast?_append_of_ne_nil _ (by simp),
    List.getLast?_eq_some_getLast (by simp)]

theorem isChain_snoc_iff {R : ℕ → ℕ → Prop} {l : List Entry} (h : l ≠ []) (t : ℕ) :
    List.IsChain R (l.map Entry.time ++ [t]) ↔
      List.IsChain R (l.map Entry.time) ∧ R (l.getLast h).time t := by
  rw [List.isChain_append]
  simp [List.getLast?_eq_some_getLast h]

theorem Tracks.unbroken_iff {w : World} {p : Session} (hw : Tracks w p) (t : ℕ) :
    Unbroken w.log p t ↔
      ∃ e ∈ (w.log.filter (Entry.uses p)).getLast?, t ≤ e.time + sessionTimeout := by
  have hlast {before after : List Entry} {e : Entry} (hlog : w.log = before ++ e :: after)
      (hop : e.op = .register p) :
      (w.log.filter (Entry.uses p)).getLast? =
        some ((e :: after.filter (Entry.uses p)).getLast (by simp)) := by
    have hok := hw.registered e (by simp [hlog]) hop
    rw [hlog]
    exact getLast?_uses (by simp [Entry.uses, hop, hok, Op.session])
  constructor
  · rintro ⟨before, e, after, hlog, hop, hchain⟩
    rw [isChain_snoc_iff (by simp)] at hchain
    exact ⟨_, hlast hlog hop, hchain.2⟩
  · rintro ⟨u, hu, hle⟩
    obtain ⟨before, e, after, hlog, hop, hchain⟩ := hw.unbroken u hu
    refine ⟨before, e, after, hlog, hop, ?_⟩
    rw [isChain_snoc_iff (by simp)] at hchain ⊢
    rw [hlast hlog hop, Option.mem_def, Option.some.injEq] at hu
    exact ⟨hchain.1, by rw [hu]; exact hle⟩

/-- A later use within a lifetime of the last one continues what was unbroken. -/
theorem Unbroken.extend {log : List Entry} {p : Session} {e : Entry}
    (h : Unbroken log p e.time) (he : e.uses p = true) : Unbroken (log ++ [e]) p e.time := by
  obtain ⟨before, r, after, rfl, hop, hchain⟩ := h
  refine ⟨before, r, after ++ [e], by simp, hop, ?_⟩
  rw [List.filter_append, List.filter_cons_of_pos he, List.filter_nil, ← List.cons_append,
    isChain_snoc_iff (by simp)]
  constructor
  · simpa using hchain
  · simp

theorem Unbroken.skip {log : List Entry} {p : Session} {e : Entry} {t : ℕ}
    (h : Unbroken log p t) (he : e.uses p = false) : Unbroken (log ++ [e]) p t := by
  obtain ⟨before, r, after, rfl, hop, hchain⟩ := h
  exact ⟨before, r, after ++ [e], by simp, hop, by simpa [List.filter_append, he] using hchain⟩

theorem unbroken_register (log : List Entry) {p : Session} {e : Entry} (hop : e.op = .register p) :
    Unbroken (log ++ [e]) p e.time :=
  ⟨log, e, [], rfl, hop, by simp⟩

theorem tracks_start (p : Session) : Tracks ⟨Redis.empty, []⟩ p :=
  ⟨rfl, by simp, by simp⟩

theorem Tracks.used {w : World} {p : Session} (hw : Tracks w p) {s : Redis} {e : Entry}
    (he : e.uses p = true) (hcell : s.cells p.key = some (p.serverName, e.time + sessionTimeout))
    (hrun : Unbroken (w.log ++ [e]) p e.time) : Tracks ⟨s, w.log ++ [e]⟩ p := by
  have hlast : ((w.log ++ [e]).filter (Entry.uses p)).getLast? = some e := by
    simp [List.filter_append, he]
  refine ⟨by rw [hlast]; exact hcell, ?_, ?_⟩
  · intro u hu
    obtain rfl : e = u := Option.some.inj (hlast.symm.trans hu)
    exact hrun
  · intro u hu hop
    rcases List.mem_append.mp hu with hold | hnew
    · exact hw.registered u hold hop
    · rw [List.mem_singleton.mp hnew]
      exact (Bool.and_eq_true _ _ ▸ he).2

theorem Tracks.unused {w : World} {p : Session} (hw : Tracks w p) {s : Redis} {e : Entry}
    (he : e.uses p = false) (hop : e.op ≠ .register p)
    (hcell : s.cells p.key = w.redis.cells p.key) : Tracks ⟨s, w.log ++ [e]⟩ p := by
  have hsame : (w.log ++ [e]).filter (Entry.uses p) = w.log.filter (Entry.uses p) := by
    simp [List.filter_append, he]
  refine ⟨by rw [hsame, ← hw.cell]; exact hcell, ?_, ?_⟩
  · intro u hu
    rw [hsame] at hu
    exact (hw.unbroken u hu).skip he
  · intro u hu hreg
    rcases List.mem_append.mp hu with hold | hnew
    · exact hw.registered u hold hreg
    · exact absurd (List.mem_singleton.mp hnew ▸ hreg) hop

/-- The invariant is kept by one call. -/
theorem Tracks.step {w : World} {p : Session} (hw : Tracks w p) (e : Event) :
    Tracks (w.step e) p := by
  set s := w.redis.wait e.delay with hs
  rw [World.step, ← hs]
  by_cases hp : e.op.session = p
  · cases hop : e.op with
    | register q =>
        obtain rfl : q = p := by simpa [hop, Op.session] using hp
        refine hw.used ?_ ?_ (unbroken_register _ rfl)
        · simp [Entry.uses, Op.session, call_register]
        · simp [call_register, cells_put]
    | validate q =>
        obtain rfl : q = p := by simpa [hop, Op.session] using hp
        by_cases hread : s.read q.key = some q.serverName
        · have hcall : call s (.validate q) = (true, s.put q.key q.serverName sessionTimeout) := by
            rw [call_validate, if_pos hread]
          have hrun : Unbroken w.log q s.now := (hw.unbroken_iff _).mpr ((hw.read_eq _).mp hread)
          have huses : Entry.uses q ⟨s.now, .validate q, true⟩ = true := by
            simp [Entry.uses, Op.session]
          rw [hcall]
          exact hw.used huses (by simp [cells_put]) (Unbroken.extend hrun huses)
        · have hcall : call s (.validate q) = (false, s) := by rw [call_validate, if_neg hread]
          rw [hcall]
          exact hw.unused (by simp [Entry.uses]) (by simp) rfl
  · refine hw.unused (by simp [Entry.uses, hp]) ?_ (cells_call_of_ne s e.op hp)
    intro hreg
    exact hp (by rw [show e.op = .register p from hreg]; rfl)

/-- The invariant holds after every history. -/
theorem tracks_run (es : List Event) (p : Session) : Tracks (run es) p := by
  rw [run]
  generalize hw : (⟨Redis.empty, []⟩ : World) = w
  have hstart : Tracks w p := hw ▸ tracks_start p
  clear hw
  induction es generalizing w with
  | nil => exact hstart
  | cons e es ih => exact ih (w.step e) (hstart.step e)

/-- After every history a session is valid exactly when it was registered and its uses
since then are unbroken. -/
theorem answer_iff (es : List Event) (p : Session) (delay : ℕ) :
    answer es p delay = true ↔ Unbroken (run es).log p ((run es).redis.now + delay) := by
  have hw := tracks_run es p
  rw [hw.unbroken_iff, ← hw.read_eq, answer, call_validate]
  split <;> simp_all

/-! ### Other sessions do not matter -/

/-- The calls of a history with the moments at which they are made. -/
def schedule : ℕ → List Event → List (ℕ × Op)
  | _, [] => []
  | now, e :: es => (now + e.delay, e.op) :: schedule (now + e.delay) es

def elapsed (es : List Event) : ℕ := (es.map Event.delay).sum

/-- The calls for one session. -/
def own (p : Session) (calls : List (ℕ × Op)) : List (ℕ × Op) :=
  calls.filter fun c => c.2.session = p

/-- A call as it is seen by the cell of its session. -/
def cellStep (p : Session) (cell : Option (GoString × ℕ)) (c : ℕ × Op) : Option (GoString × ℕ) :=
  (call ⟨c.1, fun _ => cell⟩ c.2).2.cells p.key

theorem Redis.read_congr {s t : Redis} {key : GoString} (hnow : s.now = t.now)
    (hcell : s.cells key = t.cells key) : s.read key = t.read key := by
  rw [Redis.read, Redis.read, hnow, hcell]

/-- What a call makes of a cell depends on that cell only. -/
theorem cells_call_congr (s t : Redis) (op : Op) (hnow : s.now = t.now)
    (hcell : s.cells op.session.key = t.cells op.session.key) :
    (call s op).2.cells op.session.key = (call t op).2.cells op.session.key := by
  cases op with
  | register q => simp [call_register, Op.session, cells_put, hnow]
  | validate q =>
      simp only [Op.session] at hcell ⊢
      rw [call_validate, call_validate, Redis.read_congr hnow hcell]
      split
      · simp [cells_put, hnow]
      · exact hcell

theorem now_foldl_step (es : List Event) (w : World) :
    (es.foldl World.step w).redis.now = w.redis.now + elapsed es := by
  induction es generalizing w with
  | nil => simp [elapsed]
  | cons e es ih =>
      have hnow : (w.step e).redis.now = w.redis.now + e.delay := now_call _ _
      rw [List.foldl_cons, ih, hnow, elapsed, elapsed, List.map_cons, List.sum_cons]
      omega

theorem cells_foldl_step (es : List Event) (w : World) (p : Session) :
    (es.foldl World.step w).redis.cells p.key =
      (own p (schedule w.redis.now es)).foldl (cellStep p) (w.redis.cells p.key) := by
  induction es generalizing w with
  | nil => rfl
  | cons e es ih =>
      have hnow : (w.step e).redis.now = w.redis.now + e.delay := now_call _ _
      rw [List.foldl_cons, ih, hnow, schedule]
      by_cases hp : e.op.session = p
      · have hcell : (w.step e).redis.cells p.key =
            cellStep p (w.redis.cells p.key) (w.redis.now + e.delay, e.op) := by
          rw [← hp]
          exact cells_call_congr _ _ e.op rfl rfl
        rw [hcell, own, own, List.filter_cons_of_pos (by simpa using hp), List.foldl_cons]
      · have hcell : (w.step e).redis.cells p.key = w.redis.cells p.key :=
          cells_call_of_ne _ e.op hp
        rw [hcell, own, own, List.filter_cons_of_neg (by simpa using hp)]

/-- Two histories with the same calls for a session, at the same moments, give the same
answer for it. -/
theorem answer_congr {es es' : List Event} {p : Session}
    (hown : own p (schedule 0 es) = own p (schedule 0 es')) (htime : elapsed es = elapsed es')
    (delay : ℕ) : answer es p delay = answer es' p delay := by
  have hnow : (run es).redis.now = (run es').redis.now := by
    rw [run, run, now_foldl_step, now_foldl_step, htime]
  have hcell : (run es).redis.cells p.key = (run es').redis.cells p.key := by
    rw [run, run, cells_foldl_step, cells_foldl_step]
    exact congrArg _ hown
  have hread : ((run es).redis.wait delay).read p.key = ((run es').redis.wait delay).read p.key :=
    Redis.read_congr (congrArg (· + delay) hnow) hcell
  rw [answer, answer, call_validate, call_validate, hread]
  split <;> rfl

/-! ### The name under which a rule owns its sessions -/

/-- `MatchRule`, without the host matcher, which is computed from the domain. -/
structure MatchRule where
  serverName : GoString
  matchRuleDomain : GoString
  matchRulePath : GoString
  matchRuleType : GoString
  upstreamType : GoString
  enablePathRewrite : Bool
  pathRewritePrefix : GoString
deriving DecidableEq

/-- `strconv.FormatBool`. -/
def formatBool (b : Bool) : GoString := if b then bytes "true" else bytes "false"

namespace MatchRule

/-- The match fields of a rule as one text. -/
def matchKey (rule : MatchRule) : GoString :=
  bytes "rule:" ++
    encodeKeyComponent rule.matchRuleDomain ++ bytes ":" ++
    encodeKeyComponent rule.matchRulePath ++ bytes ":" ++
    encodeKeyComponent rule.matchRuleType ++ bytes ":" ++
    encodeKeyComponent rule.upstreamType ++ bytes ":" ++
    encodeKeyComponent (formatBool rule.enablePathRewrite) ++ bytes ":" ++
    encodeKeyComponent rule.pathRewritePrefix

def sessionServerName (rule : MatchRule) : GoString :=
  if rule.serverName ≠ [] then rule.serverName else rule.matchKey

/-- The rules differ in their explicit names, or have none and differ in a match field. -/
def Distinct (rule other : MatchRule) : Prop :=
  rule.serverName ≠ other.serverName ∨
    rule.serverName = [] ∧ other.serverName = [] ∧ rule ≠ other

theorem matchKey_ne_nil (rule : MatchRule) : rule.matchKey ≠ [] := by
  have hhead : bytes "rule:" ≠ [] := by decide
  simp [matchKey, hhead]

theorem formatBool_injective : Function.Injective formatBool := by decide

/-- The match fields are read back from their text. -/
theorem eq_of_matchKey_eq {rule other : MatchRule} (hname : rule.serverName = other.serverName)
    (h : rule.matchKey = other.matchKey) : rule = other := by
  simp only [matchKey, List.append_assoc] at h
  obtain ⟨hdomain, h⟩ := encodeKeyComponent_append_inj (List.append_cancel_left h)
  obtain ⟨hpath, h⟩ := encodeKeyComponent_append_inj (List.append_cancel_left h)
  obtain ⟨htype, h⟩ := encodeKeyComponent_append_inj (List.append_cancel_left h)
  obtain ⟨hupstream, h⟩ := encodeKeyComponent_append_inj (List.append_cancel_left h)
  obtain ⟨hrewrite, h⟩ := encodeKeyComponent_append_inj (List.append_cancel_left h)
  have hlast : encodeKeyComponent rule.pathRewritePrefix ++ [] =
      encodeKeyComponent other.pathRewritePrefix ++ [] := by
    simpa using List.append_cancel_left h
  obtain ⟨hrest, -⟩ := encodeKeyComponent_append_inj hlast
  cases rule
  cases other
  simp_all [formatBool_injective.eq_iff]

/-- Distinct rules share their sessions exactly when the explicit name of one of them is
the spelling of the other one's match fields. -/
theorem sessionServerName_distinct_iff (rule other : MatchRule) :
    (rule.Distinct other → rule.sessionServerName ≠ other.sessionServerName) ↔
      (other.serverName = [] → rule.serverName ≠ other.matchKey) ∧
        (rule.serverName = [] → other.serverName ≠ rule.matchKey) := by
  constructor
  · intro h
    refine ⟨fun ho hkey => ?_, fun hr hkey => ?_⟩
    · have hr : rule.serverName ≠ [] := hkey ▸ other.matchKey_ne_nil
      refine h (.inl (by rw [ho]; exact hr)) ?_
      rw [sessionServerName, sessionServerName, if_pos hr, if_neg (by simpa using ho), hkey]
    · have ho : other.serverName ≠ [] := hkey ▸ rule.matchKey_ne_nil
      refine h (.inl (by rw [hr]; exact ho.symm)) ?_
      rw [sessionServerName, sessionServerName, if_pos ho, if_neg (by simpa using hr), hkey]
  · rintro ⟨hrule, hother⟩ hd heq
    rw [sessionServerName, sessionServerName] at heq
    by_cases hr : rule.serverName = [] <;> by_cases ho : other.serverName = []
    · rw [if_neg (by simpa using hr), if_neg (by simpa using ho)] at heq
      have hname : rule.serverName = other.serverName := hr.trans ho.symm
      rcases hd with hne | ⟨-, -, hne⟩
      · exact hne hname
      · exact hne (eq_of_matchKey_eq hname heq)
    · rw [if_neg (by simpa using hr), if_pos ho] at heq
      exact hother hr heq.symm
    · rw [if_pos hr, if_neg (by simpa using ho)] at heq
      exact hrule ho heq
    · rw [if_pos hr, if_pos ho] at heq
      rcases hd with hne | ⟨hnil, -, -⟩
      · exact hne heq
      · exact hr hnil

end MatchRule

/-- Sessions are isolated: the answer for a session is decided by its own registrations
and uses, calls for other sessions do not change it, and distinct rules own distinct
sessions unless one of them is named by the spelling of the other. -/
theorem sessions_isolated (rule other : MatchRule) :
    (∀ es p delay, answer es p delay = true ↔
      Unbroken (run es).log p ((run es).redis.now + delay)) ∧
    (∀ es es' p delay, own p (schedule 0 es) = own p (schedule 0 es') → elapsed es = elapsed es' →
      answer es p delay = answer es' p delay) ∧
    ((rule.Distinct other → rule.sessionServerName ≠ other.sessionServerName) ↔
      (other.serverName = [] → rule.serverName ≠ other.matchKey) ∧
        (rule.serverName = [] → other.serverName ≠ rule.matchKey)) :=
  ⟨answer_iff, fun _ _ _ delay hown htime => answer_congr hown htime delay,
    rule.sessionServerName_distinct_iff other⟩

/-- A rule for `/mcp` without a server name. -/
def unnamed : MatchRule :=
  ⟨[], bytes "*", bytes "/mcp", bytes "prefix", bytes "sse", false, []⟩

/-- A rule named by the spelling of the fields of the other one. -/
def lookalike : MatchRule :=
  ⟨bytes "rule:1:*:4:/mcp:6:prefix:3:sse:5:false:0:", bytes "example.com", bytes "/other",
    bytes "exact", bytes "rest", false, []⟩

theorem unnamed_shares_sessions :
    unnamed.Distinct lookalike ∧ unnamed.sessionServerName = lookalike.sessionServerName := by
  refine ⟨.inl (by decide), by decide⟩

end Higress.Mcp.SessionRegistry
