import Mathlib
import Higress.Lib.GoString
import Higress.Lib.Regex

/-!
The origin patterns of the cors plugin. A declared pattern is put into lower case, cut at its port
list, quoted, and compiled as a regular expression in which each `*` has become `.*`.

A string is the sequence of characters that Go's `range` finds in it: everything here is read after
`strings.ToLower`, which has replaced the bytes that belong to no character.
-/

namespace Higress.Cors

open Lib Lib.Regex

/-! ### Strings -/

/-- `unicode.ToLower`. Outside of ASCII it leads back to ASCII for two characters, to `i` and to `k`. -/
structure CaseMapping where
  toLower : Char → Char
  ascii : ∀ c, c.toNat < 0x80 → toLower c = c.toLower
  others : ∀ c, ¬ c.toNat < 0x80 → ¬ (toLower c).toNat < 0x80 ∨ toLower c = 'i' ∨ toLower c = 'k'

/-- A mapping that changes only ASCII. -/
def asciiCaseMapping : CaseMapping where
  toLower c := if c.toNat < 0x80 then c.toLower else c
  ascii c h := if_pos h
  others c h := by
    rw [if_neg h]
    exact .inl h

/-- `strings.ToLower`. -/
def CaseMapping.lower (cm : CaseMapping) (s : List Char) : List Char := s.map cm.toLower

/-- `strings.TrimSuffix(s, "/")`. -/
def trimSlash (s : List Char) : List Char := if s.getLast? = some '/' then s.dropLast else s

/-- `strings.ReplaceAll` of a text of one character. -/
def replaceAll (s : List Char) (old : Char) (new : List Char) : List Char :=
  s.flatMap fun c => if c = old then new else [c]

/-! ### Patterns -/

/-- The expression of `portsRegex`. -/
def portsRegex : Regex :=
  catAll [group 1 (catAll [star any]), lit ':', lit '[',
    group 2 (altAll [catAll [lit '*'],
      catAll [plus digit, star (group 3 (catAll [lit ',', plus digit]))]]), lit ']']

structure OriginPattern where
  declaredPattern : List Char
  pattern : Regex
  patternValue : List Char

/-- The value before the port list and the list, which is empty where there is none. -/
def cutPorts (declaredPattern : List Char) : List Char × List Char :=
  match findStringSubmatch portsRegex declaredPattern with
  | some m => (m 1, m 2)
  | none => (declaredPattern, [])

def quoteValue (value : List Char) : List Char :=
  replaceAll ("\\Q".toList ++ value ++ "\\E".toList) '*' "\\E.*\\Q".toList

def portsValue (portList : List Char) : List Char :=
  if portList = [] then []
  else if portList = ['*'] then "(:\\d+)?".toList
  else ":(".toList ++ replaceAll portList ',' ['|'] ++ [')']

/-- `newOriginPatternFromString`; `none` is a pattern that does not compile. -/
def newOriginPatternFromString (cm : CaseMapping) (declaredPattern : List Char) :
    Option OriginPattern :=
  let declaredPattern := cm.lower (trimSlash declaredPattern)
  let (value, portList) := cutPorts declaredPattern
  let patternValue := '^' :: (quoteValue value ++ portsValue portList ++ ['$'])
  (compile patternValue).map fun pattern => ⟨declaredPattern, pattern, patternValue⟩

/-! ### What is declared -/

inductive PortList
  | none
  | all
  | these (p : List Char) (ps : List (List Char))

namespace PortList

/-- The list between the brackets. -/
def inner : PortList → List Char
  | none => []
  | all => ['*']
  | these p ps => p ++ ps.flatMap (',' :: ·)

def text : PortList → List Char
  | none => []
  | ports => ':' :: '[' :: (ports.inner ++ [']'])

def IsValid : PortList → Prop
  | these p ps => ∀ q ∈ p :: ps, IsDigits q
  | _ => True

/-- What may follow the host. -/
def Accepts : PortList → List Char → Prop
  | none, s => s = []
  | all, s => s = [] ∨ ∃ p, IsDigits p ∧ s = ':' :: p
  | these p ps, s => ∃ q ∈ p :: ps, s = ':' :: q

end PortList

/-- A pattern of the documented form. -/
structure Declared where
  pre : List Char
  ports : PortList
  no_ports : ¬ [':', '['] <:+: pre
  no_slash : pre.getLast? ≠ some '/'
  isValid : ports.IsValid

def Declared.text (d : Declared) : List Char := d.pre ++ d.ports.text

/-- A text is a pattern with every `*` replaced by some text. -/
inductive Fills : List Char → List Char → Prop
  | nil : Fills [] []
  | char {c : Char} {p s : List Char} (hc : c ≠ '*') (h : Fills p s) : Fills (c :: p) (c :: s)
  | star (x : List Char) {p s : List Char} (h : Fills p s) : Fills ('*' :: p) (x ++ s)

/-- The origins that a declared pattern stands for. -/
def Declared.Means (cm : CaseMapping) (d : Declared) (origin : List Char) : Prop :=
  ∃ host port, cm.lower origin = host ++ port ∧ Fills (cm.lower d.pre) host ∧ d.ports.Accepts port

/-! ### Lower case -/

namespace CaseMapping

variable (cm : CaseMapping)

/-- A character that is no lower-case letter is the lower case of itself only. -/
theorem eq_of_toLower_eq {c x : Char} (hx : x.toNat < 0x80) (hlow : x.toNat < 97 ∨ 122 < x.toNat)
    (h : cm.toLower c = x) : c = x := by
  have hi : x ≠ 'i' := by
    rintro rfl
    exact absurd hlow (by decide)
  have hk : x ≠ 'k' := by
    rintro rfl
    exact absurd hlow (by decide)
  have hc : c.toNat < 0x80 := by
    by_contra hc
    rcases cm.others c hc with hhigh | hlow' | hlow'
    · exact hhigh (h ▸ hx)
    · exact hi (h.symm.trans hlow')
    · exact hk (h.symm.trans hlow')
  rw [cm.ascii c hc, Char.toLower] at h
  split at h
  · rename_i hupper
    subst h
    exfalso
    simp only [ge_iff_le, UInt32.le_iff_toNat_le] at hupper
    simp only [Char.toNat, UInt32.toNat_add] at hlow
    have h1 : ('A'.val).toNat = 65 := rfl
    have h2 : ('Z'.val).toNat = 90 := rfl
    have h3 : ('a'.val - 'A'.val).toNat = 32 := rfl
    omega
  · exact h

/-- A character that is no upper-case letter stays. -/
theorem toLower_eq_self {c : Char} (hc : c.toNat < 0x80) (hup : c.toNat < 65 ∨ 90 < c.toNat) :
    cm.toLower c = c := by
  rw [cm.ascii c hc, Char.toLower, dif_neg]
  rintro ⟨h65, h90⟩
  rw [ge_iff_le, UInt32.le_iff_toNat_le] at h65
  rw [UInt32.le_iff_toNat_le] at h90
  have h1 : ('A'.val).toNat = 65 := rfl
  have h2 : ('Z'.val).toNat = 90 := rfl
  simp only [Char.toNat] at hup
  omega

theorem mem_of_mem_lower {x : Char} (hx : x.toNat < 0x80) (hlow : x.toNat < 97 ∨ 122 < x.toNat)
    {s : List Char} (h : x ∈ cm.lower s) : x ∈ s := by
  obtain ⟨c, hc, hcx⟩ := List.mem_map.mp h
  exact cm.eq_of_toLower_eq hx hlow hcx ▸ hc

/-- Lower-casing leaves no quote to be closed. -/
theorem notMem_lower (s : List Char) : 'E' ∉ cm.lower s := by
  intro h
  obtain ⟨c, -, hc⟩ := List.mem_map.mp h
  obtain rfl := cm.eq_of_toLower_eq (by decide) (by decide) hc
  rw [cm.ascii 'E' (by decide)] at hc
  exact absurd hc (by decide)

theorem toLower_newline : cm.toLower '\n' = '\n' := cm.ascii '\n' (by decide)

theorem newline_mem_lower {s : List Char} : '\n' ∈ cm.lower s ↔ '\n' ∈ s :=
  ⟨cm.mem_of_mem_lower (by decide) (by decide),
    fun h => List.mem_map.mpr ⟨_, h, cm.toLower_newline⟩⟩

@[simp] theorem lower_append (s t : List Char) : cm.lower (s ++ t) = cm.lower s ++ cm.lower t :=
  List.map_append

theorem not_infix_lower {s : List Char} (h : ¬ [':', '['] <:+: s) : ¬ [':', '['] <:+: cm.lower s := by
  rintro ⟨a, b, hab⟩
  obtain ⟨ac, b', rfl, hac, rfl⟩ := List.map_eq_append_iff.mp hab.symm
  obtain ⟨a', c, rfl, rfl, hc⟩ := List.map_eq_append_iff.mp hac
  apply h
  refine ⟨a', b', ?_⟩
  obtain ⟨x, c', rfl, hx, hc⟩ := List.map_eq_cons_iff.mp hc
  obtain ⟨y, c', rfl, hy, hc⟩ := List.map_eq_cons_iff.mp hc
  obtain rfl := List.map_eq_nil_iff.mp hc
  rw [cm.eq_of_toLower_eq (by decide) (by decide) hx, cm.eq_of_toLower_eq (by decide) (by decide) hy]

end CaseMapping

namespace PortList

theorem text_eq {ports : PortList} (h : ports ≠ none) :
    ports.text = ':' :: '[' :: (ports.inner ++ [']']) := by
  cases ports with
  | none => exact absurd rfl h
  | all => rfl
  | these p ps => rfl

/-- The characters of a port list. -/
def isPortChar (c : Char) : Bool := isDigit c || c == ',' || c == '*'

theorem isPortChar_of_mem_inner {ports : PortList} (h : ports.IsValid) {c : Char}
    (hc : c ∈ ports.inner) : isPortChar c = true := by
  cases ports with
  | none => simp [inner] at hc
  | all =>
      obtain rfl := List.mem_singleton.mp hc
      rfl
  | these p ps =>
      rcases List.mem_append.mp hc with hc | hc
      · simp [isPortChar, (h p (by simp)).2 c hc]
      · obtain ⟨q, hq, hc⟩ := List.mem_flatMap.mp hc
        rcases List.mem_cons.mp hc with rfl | hc
        · rfl
        · simp [isPortChar, (h q (by simp [hq])).2 c hc]

theorem isPortChar_low {c : Char} (h : isPortChar c = true) : c.toNat < 65 := by
  simp only [isPortChar, isDigit, Bool.or_eq_true, Bool.and_eq_true, decide_eq_true_eq,
    beq_iff_eq] at h
  rcases h with (⟨-, h⟩ | rfl) | rfl
  · have h57 : c.val ≤ '9'.val := h
    rw [UInt32.le_iff_toNat_le] at h57
    have h1 : ('9'.val).toNat = 57 := rfl
    simp only [Char.toNat]
    omega
  · decide
  · decide

theorem lower_text (cm : CaseMapping) {ports : PortList} (h : ports.IsValid) :
    cm.lower ports.text = ports.text := by
  have hself : ∀ c ∈ ports.text, cm.toLower c = c := by
    intro c hc
    have hmem : c ∈ ':' :: '[' :: (ports.inner ++ [']']) := by
      cases ports with
      | none => simp [text] at hc
      | all => exact hc
      | these p ps => exact hc
    simp only [List.mem_cons, List.mem_append, List.not_mem_nil, or_false] at hmem
    rcases hmem with rfl | rfl | hc | rfl
    · exact cm.toLower_eq_self (by decide) (by decide)
    · exact cm.toLower_eq_self (by decide) (by decide)
    · have hlow := isPortChar_low (isPortChar_of_mem_inner h hc)
      exact cm.toLower_eq_self (by omega) (.inl hlow)
    · exact cm.toLower_eq_self (by decide) (by decide)
  rw [CaseMapping.lower, List.map_congr_left hself, List.map_id']

end PortList

theorem Declared.trimSlash_text (d : Declared) : trimSlash d.text = d.text := by
  have hlast : d.text.getLast? ≠ some '/' := by
    rw [Declared.text]
    cases d.ports with
    | none => simpa [PortList.text] using d.no_slash
    | all => simp [PortList.text, PortList.inner]
    | these p ps =>
        change (d.pre ++ (':' :: '[' :: (PortList.inner _ ++ [']']))).getLast? ≠ _
        rw [← List.cons_append, ← List.cons_append, ← List.append_assoc, List.getLast?_concat]
        decide
  rw [trimSlash, if_neg hlast]

/-! ### The port list is cut off -/

section Cut

variable {st st' : State}

/-- What the expression finds: a colon and an opening bracket behind a part of a line, and the
list up to the next closing bracket. -/
theorem exists_of_mem_ends_portsRegex (hcaps : st.caps = []) (h : st' ∈ ends portsRegex st) :
    ∃ x q t, st.rest = x ++ ':' :: '[' :: (q ++ ']' :: t) ∧ '\n' ∉ x ∧ ']' ∉ q ∧
      st'.caps.lookup 1 = some x ∧ st'.caps.lookup 2 = some q := by
  simp only [portsRegex, catAll, mem_ends_cat, mem_ends_lit] at h
  obtain ⟨u, hu, v, ⟨t, ht, rfl⟩, w, ⟨t', ht', rfl⟩, z, hz, y, ⟨t'', ht'', rfl⟩, hend⟩ := h
  obtain ⟨x, caps, hx, hxtest, hxcaps, hxgs⟩ := exists_of_mem_ends_group hu
  obtain ⟨q, caps', hq, hqtest, hqcaps, hqgs⟩ := exists_of_mem_ends_group hz
  obtain rfl : st' = z.skip 1 := by simpa [ends] using hend
  have hnil : caps = [] := by
    rw [List.eq_nil_iff_forall_not_mem]
    intro e he
    simpa [groups] using hxgs e he
  rw [State.skip_rest, ht] at ht'
  obtain rfl : t = '[' :: t' := by simpa using ht'
  have hrest : t' = q ++ ']' :: t'' := by
    rw [← ht'', ← hq]
    simp [ht]
  refine ⟨x, q, t'', ?_, ?_, ?_, ?_, ?_⟩
  · rw [hx, ht, hrest]
  · intro hmem
    exact absurd (hxtest _ hmem) (by decide)
  · intro hmem
    exact absurd (hqtest _ hmem) (by decide)
  · rw [State.skip_caps, hqcaps, State.skip_caps, State.skip_caps, hxcaps, hcaps, hnil]
    have hlookup : caps'.lookup 1 = none := by
      rw [List.lookup_eq_none_iff]
      intro e he
      have := hqgs e he
      simp only [groups, altAll, List.nil_append, List.append_nil, List.mem_singleton] at this
      simp [this]
    simp [List.lookup_cons, List.lookup_append, hlookup]
  · rw [State.skip_caps, hqcaps]
    simp

/-- A text without a colon and an opening bracket has no port list. -/
theorem findFrom_portsRegex_eq_none {s : List Char} (hs : ¬ [':', '['] <:+: s) :
    findFrom portsRegex 0 s = none := by
  apply findFrom_eq_none
  rintro u v rfl
  rw [List.eq_nil_iff_forall_not_mem]
  intro st' hst'
  obtain ⟨x, q, t, hrest, -⟩ := exists_of_mem_ends_portsRegex rfl hst'
  exact hs ⟨u ++ x, q ++ ']' :: t, by simp [show v = _ from hrest]⟩

theorem cutPorts_of_not_infix {s : List Char} (hs : ¬ [':', '['] <:+: s) : cutPorts s = (s, []) := by
  rw [cutPorts, findStringSubmatch, findFrom_portsRegex_eq_none hs]
  rfl

/-- The digits and commas of a list are read up to its end. -/
theorem exists_mem_ends_these {p : List Char} {ps : List (List Char)}
    (h : ∀ q ∈ p :: ps, IsDigits q) {t : List Char} (hrest : st.rest = p ++ ps.flatMap (',' :: ·) ++ t) :
    ∃ st' ∈ ends (catAll [plus digit, star (group 3 (catAll [lit ',', plus digit]))]) st,
      st'.rest = t := by
  have hmore (ps : List (List Char)) (h : ∀ q ∈ ps, IsDigits q) (st : State)
      (hrest : st.rest = ps.flatMap (',' :: ·) ++ t) :
      ∃ st' ∈ ends (star (group 3 (catAll [lit ',', plus digit]))) st, st'.rest = t := by
    induction ps generalizing st with
    | nil => exact ⟨st, mem_ends_star_self, hrest⟩
    | cons q ps ih =>
        have hitem : (st.skip 1).skip q.length ∈ ends (catAll [lit ',', plus digit]) st := by
          simp only [catAll, mem_ends_cat, mem_ends_lit, mem_ends_plus_digit]
          refine ⟨st.skip 1, ⟨q ++ ps.flatMap (',' :: ·) ++ t, by simp [hrest], rfl⟩, _,
            ⟨q, h q (by simp), ?_, rfl⟩, by simp [ends]⟩
          exact ⟨ps.flatMap (',' :: ·) ++ t, by simp [hrest]⟩
        obtain ⟨u, hu, hurest⟩ := (@exists_mem_ends_group _ 3 _
          (· = ps.flatMap (',' :: ·) ++ t)).mpr ⟨_, hitem, by simp [hrest]⟩
        obtain ⟨st', hst', ht⟩ := ih (fun x hx => h x (by simp [hx])) u hurest
        refine ⟨st', mem_ends_star_of_mem hu ?_ hst', ht⟩
        simp only [hurest, hrest, List.length_append, List.flatMap_cons, List.length_cons]
        omega
  have hfirst : st.skip p.length ∈ ends (plus digit) st :=
    mem_ends_plus_digit.mpr ⟨p, h p (by simp), ⟨ps.flatMap (',' :: ·) ++ t, by simp [hrest]⟩, rfl⟩
  obtain ⟨st', hst', ht⟩ := hmore ps (fun q hq => h q (by simp [hq])) (st.skip p.length)
    (by simp [hrest])
  refine ⟨st', ?_, ht⟩
  simp only [catAll, mem_ends_cat]
  exact ⟨_, hfirst, st', hst', by simp [ends]⟩

theorem exists_mem_ends_inner {ports : PortList} (h : ports.IsValid) (hports : ports ≠ .none)
    {t : List Char} (hrest : st.rest = ports.inner ++ t) :
    ∃ st' ∈ ends (altAll [catAll [lit '*'],
      catAll [plus digit, star (group 3 (catAll [lit ',', plus digit]))]]) st, st'.rest = t := by
  have hmem (st' : State) := @mem_ends_altAll st st' [catAll [lit '*'],
    catAll [plus digit, star (group 3 (catAll [lit ',', plus digit]))]] (by simp)
  cases ports with
  | none => exact absurd rfl hports
  | all =>
      refine ⟨st.skip 1, (hmem _).mpr ⟨_, List.mem_cons_self, ?_⟩, by simp [hrest, PortList.inner]⟩
      exact mem_ends_catAll_singleton.mpr (mem_ends_lit.mpr ⟨t, hrest, rfl⟩)
  | these p ps =>
      obtain ⟨st', hst', ht⟩ := exists_mem_ends_these h hrest
      exact ⟨st', (hmem _).mpr ⟨_, by simp, hst'⟩, ht⟩

/-- A line before a port list leads to a match. -/
theorem exists_mem_ends_portsRegex {ports : PortList} (h : ports.IsValid) (hports : ports ≠ .none)
    {w : List Char} (hw : '\n' ∉ w) (hrest : st.rest = w ++ ports.text) :
    ∃ st', st' ∈ ends portsRegex st := by
  rw [PortList.text_eq hports] at hrest
  have hline : st.skip w.length ∈ ends (catAll [star any]) st :=
    mem_ends_catAll_singleton.mpr (mem_ends_star_any.mpr ⟨w, hw, ⟨_, hrest.symm⟩, rfl⟩)
  obtain ⟨u, hu, hurest⟩ := (@exists_mem_ends_group _ 1 _
    (· = ':' :: '[' :: (ports.inner ++ [']']))).mpr ⟨_, hline, by simp [hrest]⟩
  obtain ⟨v, hv, hvrest⟩ := exists_mem_ends_inner h hports
    (show ((u.skip 1).skip 1).rest = ports.inner ++ [']'] by simp [hurest])
  obtain ⟨z, hz, hzrest⟩ := (@exists_mem_ends_group _ 2 _ (· = [']'])).mpr ⟨v, hv, hvrest⟩
  refine ⟨z.skip 1, ?_⟩
  rw [portsRegex]
  simp only [catAll, mem_ends_cat, mem_ends_lit]
  exact ⟨u, hu, _, ⟨_, hurest, rfl⟩, _, ⟨ports.inner ++ [']'], by simp [hurest], rfl⟩, z, hz, _,
    ⟨_, hzrest, rfl⟩, by simp [ends]⟩

/-- A colon and an opening bracket stand only at the list. -/
theorem eq_of_append_ports {w x q t inner : List Char} (hw : ¬ [':', '['] <:+: w)
    (hinner : '[' ∉ inner) (hinner' : ']' ∉ inner) (hq : ']' ∉ q)
    (h : w ++ ':' :: '[' :: (inner ++ [']']) = x ++ ':' :: '[' :: (q ++ ']' :: t)) :
    x = w ∧ q = inner := by
  rcases List.append_eq_append_iff.mp h with ⟨a, rfl, ha⟩ | ⟨a, rfl, ha⟩
  · cases a with
    | nil =>
        simp only [List.nil_append, List.cons.injEq, true_and] at ha
        obtain ⟨rfl, -⟩ := append_cons_inj_of_notMem hinner' hq ha
        exact ⟨by simp, rfl⟩
    | cons c a =>
        exfalso
        -- The bracket of the match would lie in the list.
        simp only [List.cons_append, List.cons.injEq] at ha
        obtain ⟨-, ha⟩ := ha
        have hmem : '[' ∈ inner ++ [']'] := by
          cases a with
          | nil => simp at ha
          | cons c' a =>
              simp only [List.cons_append, List.cons.injEq] at ha
              rw [ha.2]
              simp
        rcases List.mem_append.mp hmem with hmem | hmem
        · exact hinner hmem
        · simp at hmem
  · cases a with
    | nil =>
        simp only [List.nil_append, List.cons.injEq, true_and] at ha
        obtain ⟨rfl, -⟩ := append_cons_inj_of_notMem hq hinner' ha
        exact ⟨by simp, rfl⟩
    | cons c a =>
        exfalso
        simp only [List.cons_append, List.cons.injEq] at ha
        obtain ⟨rfl, ha⟩ := ha
        cases a with
        | nil => simp at ha
        | cons c' a =>
            simp only [List.cons_append, List.cons.injEq] at ha
            obtain ⟨rfl, -⟩ := ha
            exact hw ⟨x, a, by simp⟩

/-- Of a value with a port list the last line is left. -/
theorem cutPorts_append {ports : PortList} (h : ports.IsValid) (hports : ports ≠ .none)
    {a w : List Char} (ha : a = [] ∨ ∃ b, a = b ++ ['\n']) (hw : '\n' ∉ w)
    (hno : ¬ [':', '['] <:+: a ++ w) :
    cutPorts (a ++ w ++ ports.text) = (w, ports.inner) := by
  -- No match begins before the last line.
  have hskip : findFrom portsRegex 0 (a ++ (w ++ ports.text)) =
      findFrom portsRegex (0 + a.length) (w ++ ports.text) := by
    apply findFrom_append
    intro u v huv hv
    rw [List.eq_nil_iff_forall_not_mem]
    intro st' hst'
    obtain ⟨x, q, t, hrest, hx, -⟩ := exists_of_mem_ends_portsRegex rfl hst'
    obtain ⟨v', rfl⟩ : ∃ v', v = v' ++ ['\n'] := by
      rcases ha with rfl | ⟨b, rfl⟩
      · simp at huv
        exact absurd huv.2 hv
      · obtain ⟨v', c, rfl⟩ := List.eq_nil_or_concat' v |>.resolve_left hv
        rw [← List.append_assoc] at huv
        exact ⟨v', by rw [(List.append_inj' huv rfl).2]⟩
    have hline : '\n' ∉ x ++ [':', '['] := by simpa using hx
    have hwithin : x ++ [':', '['] <+: v' := by
      have heq : v' ++ '\n' :: (w ++ ports.text) = (x ++ [':', '[']) ++ (q ++ ']' :: t) := by
        simpa using hrest
      rcases List.append_eq_append_iff.mp heq with ⟨k, hk, hk'⟩ | ⟨k, hk, -⟩
      · cases k with
        | nil => exact ⟨[], by simpa using hk⟩
        | cons c k =>
            obtain rfl : '\n' = c := (List.cons.inj hk').1
            exact absurd (hk ▸ by simp) hline
      · exact ⟨k, hk.symm⟩
    obtain ⟨k, rfl⟩ := hwithin
    exact hno ⟨u ++ x, k ++ '\n' :: w, by simp [huv]⟩
  obtain ⟨st, hst⟩ := exists_mem_ends_portsRegex h hports hw
    (show (State.mk (0 + a.length) (w ++ ports.text) []).rest = _ from rfl)
  obtain ⟨st', sts, hends⟩ := List.exists_cons_of_ne_nil (List.ne_nil_of_mem hst)
  have hfind : findFrom portsRegex (0 + a.length) (w ++ ports.text) = some st' := by
    rw [findFrom.eq_def, hends]
    rfl
  obtain ⟨x, q, t, hrest, -, hq, hone, htwo⟩ := @exists_of_mem_ends_portsRegex _ st' rfl
    (hends ▸ List.mem_cons_self)
  have hinner (c : Char) (hc : isDigit c = false ∧ c ≠ ',' ∧ c ≠ '*') : c ∉ ports.inner := by
    intro hmem
    have := PortList.isPortChar_of_mem_inner h hmem
    simp [PortList.isPortChar, hc] at this
  obtain ⟨rfl, rfl⟩ := eq_of_append_ports (fun hinside => hno (hinside.trans (List.suffix_append a w).isInfix))
    (hinner '[' (by decide)) (hinner ']' (by decide)) hq (by rw [← PortList.text_eq hports]; exact hrest)
  rw [cutPorts, findStringSubmatch, List.append_assoc, hskip, hfind]
  simp [hone, htwo]

end Cut

/-! ### The pattern is compiled -/

/-- The tokens of a quoted value. -/
def valueTokens (value : List Char) : List Token :=
  value.flatMap fun c => if c = '*' then [.any, .star] else [.lit c]

/-- A quoted value as an expression: everything but `*` stands for itself. -/
def valueItems (value : List Char) : List Regex :=
  value.map fun c => if c = '*' then star any else lit c

theorem lex_value {value : List Char} (h : 'E' ∉ value) (t : List Char) :
    lex .quoted (replaceAll value '*' ['\\', 'E', '.', '*', '\\', 'Q'] ++ '\\' :: 'E' :: t) =
        (lex .plain t).map (valueTokens value ++ ·) ∧
      lex .quotedEscape (replaceAll value '*' ['\\', 'E', '.', '*', '\\', 'Q'] ++ '\\' :: 'E' :: t) =
        (lex .plain t).map (Token.lit '\\' :: valueTokens value ++ ·) := by
  induction value with
  | nil => simp [lex, replaceAll, valueTokens]
  | cons c value ih =>
      simp only [List.mem_cons, not_or] at h
      obtain ⟨hquoted, hescape⟩ := ih h.2
      have hc : c ≠ 'E' := Ne.symm h.1
      simp only [replaceAll, valueTokens, List.flatMap_cons] at hquoted hescape ⊢
      by_cases hstar : c = '*'
      · subst hstar
        constructor
        · simp [lex, token, hquoted, Function.comp_def]
        · simp [lex, token, hquoted, Function.comp_def]
      · by_cases hback : c = '\\'
        · subst hback
          constructor
          · simp [lex, hescape]
          · simp [lex, hescape, Function.comp_def]
        · constructor
          · simp [lex, hstar, hback, hquoted, Function.comp_def]
          · simp [lex, hstar, hback, hc, hquoted, Function.comp_def]

theorem foldlM_valueTokens (value : List Char) (s : Stack) :
    (valueTokens value).foldlM Stack.step s =
      some { s with top := { s.top with items := s.top.items ++ valueItems value } } := by
  induction value generalizing s with
  | nil => simp [valueTokens, valueItems]
  | cons c value ih =>
      rw [valueTokens] at ih ⊢
      rw [List.flatMap_cons, List.foldlM_append]
      by_cases hstar : c = '*'
      · simp [hstar, Stack.step, Stack.push, Frame.push, Stack.repeatLast, isRepeat, ih, valueItems]
      · simp [hstar, Stack.step, Stack.push, Frame.push, ih, valueItems]

def portTokens : PortList → List Token
  | .none => []
  | .all => [.lpar, .lit ':', .digit, .plus, .rpar, .quest]
  | .these p ps =>
      .lit ':' :: .lpar :: (p.map .lit ++ ps.flatMap (fun q => .bar :: q.map .lit) ++ [.rpar])

/-- What follows the value, as an expression. -/
def portItems : PortList → List Regex
  | .none => []
  | .all => [quest (group 1 (catAll [lit ':', plus digit]))]
  | .these p ps => [lit ':', group 1 (altAll ((p :: ps).map fun q => catAll (q.map lit)))]

theorem lex_digits {p : List Char} (hp : ∀ c ∈ p, isDigit c = true) (t : List Char) :
    lex .plain (p ++ t) = (lex .plain t).map (p.map Token.lit ++ ·) := by
  induction p with
  | nil => simp
  | cons c p ih =>
      have hc := hp c (by simp)
      have hne (x : Char) (hx : isDigit x = false) : c ≠ x := by
        rintro rfl
        simp [hc] at hx
      rw [List.cons_append, lex, if_neg (hne '\\' rfl), token, if_neg (hne '.' rfl),
        if_neg (hne '^' rfl), if_neg (hne '$' rfl), if_neg (hne '*' rfl), if_neg (hne '+' rfl),
        if_neg (hne '?' rfl), if_neg (hne '(' rfl), if_neg (hne ')' rfl), if_neg (hne '|' rfl),
        if_neg (by simp [hne '[' rfl, hne '{' rfl]), ih fun x hx => hp x (by simp [hx])]
      simp [Function.comp_def]

theorem replaceAll_digits {p : List Char} (hp : ∀ c ∈ p, isDigit c = true) :
    replaceAll p ',' ['|'] = p := by
  induction p with
  | nil => rfl
  | cons c p ih =>
      have hc : c ≠ ',' := by
        rintro rfl
        exact absurd (hp ',' (by simp)) (by decide)
      rw [replaceAll] at ih ⊢
      simp [hc, ih fun x hx => hp x (by simp [hx])]

theorem lex_these {p : List Char} {ps : List (List Char)} (h : ∀ q ∈ p :: ps, IsDigits q)
    (t : List Char) :
    lex .plain (replaceAll (p ++ ps.flatMap (',' :: ·)) ',' ['|'] ++ t) =
      (lex .plain t).map (p.map Token.lit ++ ps.flatMap (fun q => .bar :: q.map .lit) ++ ·) := by
  have hmore : lex .plain (replaceAll (ps.flatMap (',' :: ·)) ',' ['|'] ++ t) =
      (lex .plain t).map (ps.flatMap (fun q => Token.bar :: q.map .lit) ++ ·) := by
    induction ps with
    | nil => simp [replaceAll]
    | cons q ps ih =>
        have hq := (h q (by simp)).2
        have htext : replaceAll ((q :: ps).flatMap (',' :: ·)) ',' ['|'] ++ t =
            '|' :: (q ++ (replaceAll (ps.flatMap (',' :: ·)) ',' ['|'] ++ t)) := by
          have := replaceAll_digits hq
          rw [replaceAll] at this ⊢
          simp [this, replaceAll]
        rw [htext, lex, if_neg (by decide), lex_digits hq, ih]
        · simp [token, Function.comp_def]
        · intro x hx
          rcases List.mem_cons.mp hx with rfl | hx
          · exact h x (by simp)
          · exact h x (by simp [hx])
  have hp := (h p (by simp)).2
  have htext : replaceAll (p ++ ps.flatMap (',' :: ·)) ',' ['|'] ++ t =
      p ++ (replaceAll (ps.flatMap (',' :: ·)) ',' ['|'] ++ t) := by
    have := replaceAll_digits hp
    rw [replaceAll] at this ⊢
    simp [this, replaceAll]
  rw [htext, lex_digits hp, hmore]
  simp [Function.comp_def]

theorem lex_portsValue {ports : PortList} (h : ports.IsValid) :
    lex .plain (portsValue ports.inner ++ ['$']) = some (portTokens ports ++ [.endText]) := by
  cases ports with
  | none => rfl
  | all => rfl
  | these p ps =>
      obtain ⟨hne, hp⟩ := h p (by simp)
      obtain ⟨c, p, rfl⟩ := List.exists_cons_of_ne_nil hne
      have hc : c ≠ '*' := by
        rintro rfl
        exact absurd (hp '*' (by simp)) (by decide)
      rw [portsValue, PortList.inner, if_neg (by simp), if_neg (by simp [hc])]
      change lex .plain (':' :: '(' :: (replaceAll _ ',' ['|'] ++ [')'] ++ ['$'])) = _
      rw [lex, if_neg (by decide), lex, if_neg (by decide), List.append_assoc, lex_these h]
      simp [token, lex, portTokens]

theorem foldlM_lits (p : List Char) (s : Stack) : (p.map Token.lit).foldlM Stack.step s =
    some { s with top := { s.top with items := s.top.items ++ p.map lit } } := by
  induction p generalizing s with
  | nil => simp
  | cons c p ih => simp [Stack.step, Stack.push, Frame.push, ih]

/-- Alternatives are read into one group. -/
theorem foldlM_bars (p : List Char) (ps : List (List Char)) (groups i : ℕ) (alts : List Regex)
    (below : List Frame) :
    ∃ f : Frame, (ps.flatMap (fun q => Token.bar :: q.map .lit)).foldlM Stack.step
        ⟨groups, ⟨i, alts, p.map lit⟩, below⟩ = some ⟨groups, f, below⟩ ∧ f.index = i ∧
      f.close = altAll (alts ++ (p :: ps).map fun q => catAll (q.map lit)) := by
  induction ps generalizing p alts with
  | nil => exact ⟨_, rfl, rfl, rfl⟩
  | cons q ps ih =>
      obtain ⟨f, hf, hindex, hclose⟩ := ih q (alts ++ [catAll (p.map lit)])
      refine ⟨f, ?_, hindex, by simpa using hclose⟩
      rw [List.flatMap_cons, List.cons_append, List.foldlM_cons]
      simp only [Stack.step, Option.bind_eq_bind, Option.bind_some, List.foldlM_append, foldlM_lits,
        List.nil_append]
      exact hf

theorem foldlM_portTokens (ports : PortList) (items : List Regex) :
    ∃ n, (portTokens ports).foldlM Stack.step ⟨0, ⟨0, [], items⟩, []⟩ =
      some ⟨n, ⟨0, [], items ++ portItems ports⟩, []⟩ := by
  cases ports with
  | none => exact ⟨0, by simp [portTokens, portItems]⟩
  | all =>
      refine ⟨1, ?_⟩
      simp [portTokens, portItems, Stack.step, Stack.push, Frame.push, Stack.repeatLast, isRepeat,
        Frame.close, altAll]
  | these p ps =>
      obtain ⟨f, hf, hindex, hclose⟩ := foldlM_bars p ps 1 1 [] [⟨0, [], items ++ [lit ':']⟩]
      refine ⟨1, ?_⟩
      rw [portTokens, List.foldlM_cons, Stack.step, Option.bind_eq_bind, Option.bind_some,
        List.foldlM_cons, Stack.step, Option.bind_eq_bind, Option.bind_some, List.foldlM_append,
        List.foldlM_append, foldlM_lits, Option.bind_eq_bind, Option.bind_some]
      simp only [Stack.push, Frame.push, List.nil_append, Nat.zero_add]
      rw [hf]
      simp [Stack.step, Frame.push, hindex, hclose, portItems]

/-- The expression of a pattern. -/
def patternRegex (value : List Char) (ports : PortList) : Regex :=
  catAll (beginText :: (valueItems value ++ portItems ports ++ [endText]))

/-- Every pattern compiles, and nothing in it leaves the quotes. -/
theorem compile_pattern {value : List Char} (h : 'E' ∉ value) {ports : PortList}
    (hports : ports.IsValid) :
    compile ('^' :: (quoteValue value ++ portsValue ports.inner ++ ['$'])) =
      some (patternRegex value ports) := by
  have hquote : quoteValue value ++ portsValue ports.inner ++ ['$'] =
      '\\' :: 'Q' :: (replaceAll value '*' ['\\', 'E', '.', '*', '\\', 'Q'] ++ '\\' :: 'E' ::
        (portsValue ports.inner ++ ['$'])) := by
    simp [quoteValue, replaceAll]
  have hlex : lex .plain ('^' :: (quoteValue value ++ portsValue ports.inner ++ ['$'])) =
      some (.beginText :: (valueTokens value ++ (portTokens ports ++ [.endText]))) := by
    rw [hquote, lex, if_neg (by decide), lex, if_pos rfl, lex, if_pos rfl, (lex_value h _).1,
      lex_portsValue hports]
    rfl
  obtain ⟨n, hn⟩ := foldlM_portTokens ports (beginText :: valueItems value)
  rw [compile, hlex]
  simp only [Option.bind_eq_bind, Option.bind_some, List.foldlM_cons, List.foldlM_append,
    Stack.step, Stack.push, Frame.push, foldlM_valueTokens, List.nil_append, List.singleton_append, hn]
  simp [Frame.close, altAll, patternRegex]

/-! ### What a pattern matches -/

theorem mem_ends_valueItems {value : List Char} {st st' : State} (h : '\n' ∉ st.rest) :
    st' ∈ ends (catAll (valueItems value)) st ↔
      ∃ x, Fills value x ∧ x <+: st.rest ∧ st' = st.skip x.length := by
  induction value generalizing st with
  | nil =>
      simp only [valueItems, List.map_nil, catAll, ends, List.mem_singleton]
      constructor
      · rintro rfl
        exact ⟨[], .nil, List.nil_prefix, by simp⟩
      · rintro ⟨x, hx, -, rfl⟩
        cases hx
        simp
  | cons c value ih =>
      have hskip (n : ℕ) : '\n' ∉ (st.skip n).rest := fun hmem => h (List.mem_of_mem_drop hmem)
      simp only [valueItems, List.map_cons, catAll, mem_ends_cat] at ih ⊢
      by_cases hstar : c = '*'
      · subst hstar
        simp only [if_pos, mem_ends_star_any]
        constructor
        · rintro ⟨u, ⟨x, -, ⟨t, ht⟩, rfl⟩, hst'⟩
          obtain ⟨y, hy, ⟨t', ht'⟩, rfl⟩ := (ih (hskip _)).mp hst'
          rw [State.skip_rest, ← ht, List.drop_left] at ht'
          refine ⟨x ++ y, .star x hy, ⟨t', by simp [← ht, ← ht']⟩, ?_⟩
          rw [State.skip_skip, List.length_append]
        · rintro ⟨z, hz, ⟨t, ht⟩, rfl⟩
          cases hz with
          | char hc _ => exact absurd rfl hc
          | @star x _ y hy =>
              refine ⟨st.skip x.length, ⟨x, ?_, ⟨y ++ t, by simp [← ht]⟩, rfl⟩, (ih (hskip _)).mpr
                ⟨y, hy, ⟨t, by simp [← ht]⟩, ?_⟩⟩
              · intro hmem
                exact h (by simp [← ht, hmem])
              · rw [State.skip_skip, List.length_append]
      · rw [if_neg hstar]
        simp only [mem_ends_lit]
        constructor
        · rintro ⟨u, ⟨t, ht, rfl⟩, hst'⟩
          obtain ⟨y, hy, ⟨t', ht'⟩, rfl⟩ := (ih (hskip _)).mp hst'
          rw [State.skip_rest, ht, List.drop_one, List.tail_cons] at ht'
          refine ⟨c :: y, .char hstar hy, ⟨t', by simp [ht, ht']⟩, ?_⟩
          rw [State.skip_skip, List.length_cons, Nat.add_comm]
        · rintro ⟨z, hz, ⟨t, ht⟩, rfl⟩
          cases hz with
          | star => exact absurd rfl hstar
          | @char _ _ y _ hy =>
              refine ⟨st.skip 1, ⟨y ++ t, ht.symm, rfl⟩, (ih (hskip _)).mpr
                ⟨y, hy, ⟨t, by simp [← ht]⟩, ?_⟩⟩
              rw [State.skip_skip, List.length_cons, Nat.add_comm]

theorem exists_mem_ends_endText {r : Regex} {st : State} :
    (∃ st', st' ∈ ends (catAll [r, endText]) st) ↔ ∃ u ∈ ends r st, u.rest = [] := by
  have hend (u st' : State) : st' ∈ ends (catAll [endText]) u ↔ u.rest = [] ∧ st' = u := by
    rw [mem_ends_catAll_singleton, mem_ends_endText]
  simp only [catAll] at hend
  simp [catAll, mem_ends_cat, hend]

theorem exists_mem_ends_portItems {ports : PortList} {st : State} :
    (∃ st', st' ∈ ends (catAll (portItems ports ++ [endText])) st) ↔ ports.Accepts st.rest := by
  cases ports with
  | none =>
      change (∃ st', st' ∈ ends (catAll [endText]) st) ↔ st.rest = []
      simp [mem_ends_catAll_singleton, mem_ends_endText]
  | all =>
      change (∃ st', st' ∈ ends (catAll [_, endText]) st) ↔ _
      rw [exists_mem_ends_endText, PortList.Accepts]
      have hquest : (∃ u ∈ ends (quest (group 1 (catAll [lit ':', plus digit]))) st, u.rest = []) ↔
          st.rest = [] ∨ ∃ u ∈ ends (group 1 (catAll [lit ':', plus digit])) st, u.rest = [] := by
        simp only [mem_ends_quest, or_and_right, exists_or, exists_eq_left, or_comm]
      rw [hquest, @exists_mem_ends_group _ _ _ (· = [])]
      simp only [catAll, mem_ends_cat, mem_ends_lit, mem_ends_plus_digit]
      apply or_congr_right
      constructor
      · rintro ⟨w, ⟨u, ⟨t, ht, rfl⟩, v, ⟨x, hx, ⟨t', ht'⟩, rfl⟩, hw⟩, hnil⟩
        obtain rfl : w = (st.skip 1).skip x.length := by simpa [ends] using hw
        refine ⟨x, hx, ?_⟩
        have htx : t = x ++ t' := by simpa [ht] using ht'.symm
        have hnil' : t' = [] := by simpa [ht, htx] using hnil
        rw [ht, htx, hnil', List.append_nil]
      · rintro ⟨x, hx, hrest⟩
        exact ⟨(st.skip 1).skip x.length, ⟨st.skip 1, ⟨x, hrest, rfl⟩, _,
          ⟨x, hx, by simp [hrest], rfl⟩, by simp [ends]⟩, by simp [hrest]⟩
  | these p ps =>
      rw [portItems, List.cons_append, List.cons_append, List.nil_append, catAll]
      simp only [mem_ends_cat, mem_ends_lit]
      constructor
      · rintro ⟨st', u, ⟨t, ht, rfl⟩, hst'⟩
        obtain ⟨v, hv, hnil⟩ := (@exists_mem_ends_group _ _ _ (· = [])).mp
          (exists_mem_ends_endText.mp ⟨st', hst'⟩)
        obtain ⟨r, hr, hv⟩ := (mem_ends_altAll (by simp)).mp hv
        obtain ⟨q, hq, rfl⟩ := List.mem_map.mp hr
        obtain ⟨⟨t', ht'⟩, rfl⟩ := mem_ends_lits.mp hv
        refine ⟨q, hq, ?_⟩
        have htq : t = q ++ t' := by simpa [ht] using ht'.symm
        have hnil' : t' = [] := by simpa [ht, htq] using hnil
        rw [ht, htq, hnil', List.append_nil]
      · rintro ⟨q, hq, hrest⟩
        have hv : (st.skip 1).skip q.length ∈
            ends (altAll ((p :: ps).map fun q => catAll (q.map lit))) (st.skip 1) := by
          rw [mem_ends_altAll (by simp)]
          exact ⟨_, List.mem_map.mpr ⟨q, hq, rfl⟩, mem_ends_lits.mpr ⟨by simp [hrest], rfl⟩⟩
        obtain ⟨st', hst'⟩ := exists_mem_ends_endText.mpr
          ((@exists_mem_ends_group _ 1 _ (· = [])).mpr ⟨_, hv, by simp [hrest]⟩)
        exact ⟨st', st.skip 1, ⟨q, hrest, rfl⟩, hst'⟩

theorem matchString_patternRegex {value s : List Char} {ports : PortList} (h : '\n' ∉ s) :
    matchString (patternRegex value ports) s = true ↔
      ∃ host port, s = host ++ port ∧ Fills value host ∧ ports.Accepts port := by
  have hbegin (st st' : State) (hst' : st' ∈ ends (patternRegex value ports) st) : st.pos = 0 := by
    rw [patternRegex, catAll, mem_ends_cat] at hst'
    obtain ⟨u, hu, -⟩ := hst'
    by_contra hpos
    simp [ends, hpos] at hu
  rw [matchString_iff_of_beginText hbegin, patternRegex, catAll]
  simp only [mem_ends_cat, List.append_assoc, @mem_ends_catAll_append _ _ (valueItems value)]
  constructor
  · rintro ⟨st', u, hu, v, hv, hst'⟩
    obtain rfl : u = ⟨0, s, []⟩ := by simpa [ends] using hu
    obtain ⟨x, hx, ⟨t, ht⟩, rfl⟩ := (mem_ends_valueItems h).mp hv
    refine ⟨x, t, ht.symm, hx, ?_⟩
    have := exists_mem_ends_portItems.mp ⟨st', hst'⟩
    rwa [State.skip_rest, ← show x ++ t = _ from ht, List.drop_left] at this
  · rintro ⟨host, port, rfl, hhost, hport⟩
    have hrest : ((⟨0, host ++ port, []⟩ : State).skip host.length).rest = port := by simp
    obtain ⟨st', hst'⟩ := exists_mem_ends_portItems.mpr (hrest.symm ▸ hport)
    exact ⟨st', _, by simp [ends], _, (mem_ends_valueItems h).mpr
      ⟨host, hhost, List.prefix_append host port, rfl⟩, hst'⟩

/-! ### The meaning of a pattern -/

/-- What is left of a value in front of a port list. -/
def lastLine (s : List Char) : List Char := s.rtakeWhile (· != '\n')

theorem exists_append_lastLine (s : List Char) :
    ∃ a, s = a ++ lastLine s ∧ (a = [] ∨ ∃ b, a = b ++ ['\n']) ∧ '\n' ∉ lastLine s := by
  induction s using List.reverseRecOn with
  | nil => exact ⟨[], rfl, .inl rfl, by simp [lastLine]⟩
  | append_singleton s c ih =>
      by_cases hc : c = '\n'
      · subst hc
        have hnil : lastLine (s ++ ['\n']) = [] := by simp [lastLine]
        exact ⟨s ++ ['\n'], by simp [hnil], .inr ⟨s, rfl⟩, by simp [hnil]⟩
      · obtain ⟨a, hs, ha, hline⟩ := ih
        have hlast : lastLine (s ++ [c]) = lastLine s ++ [c] := by simp [lastLine, hc]
        refine ⟨a, ?_, ha, ?_⟩
        · rw [hlast, ← List.append_assoc, ← hs]
        · simpa [hlast] using ⟨hline, Ne.symm hc⟩

theorem lastLine_append {a w : List Char} (ha : a = [] ∨ ∃ b, a = b ++ ['\n']) (hw : '\n' ∉ w) :
    lastLine (a ++ w) = w := by
  induction w using List.reverseRecOn with
  | nil =>
      rcases ha with rfl | ⟨b, rfl⟩
      · rfl
      · simp [lastLine]
  | append_singleton w c ih =>
      have hc : c ≠ '\n' := by
        rintro rfl
        simp at hw
      rw [lastLine, ← List.append_assoc, List.rtakeWhile_concat_pos _ _ _ (by simpa using hc),
        ← lastLine, ih fun hmem => hw (by simp [hmem])]

theorem lower_lastLine (cm : CaseMapping) (s : List Char) :
    lastLine (cm.lower s) = cm.lower (lastLine s) := by
  obtain ⟨a, hs, ha, hline⟩ := exists_append_lastLine s
  have hlower : lastLine (cm.lower a ++ cm.lower (lastLine s)) = cm.lower (lastLine s) := by
    refine lastLine_append ?_ (by rwa [cm.newline_mem_lower])
    rcases ha with rfl | ⟨b, rfl⟩
    · exact .inl rfl
    · exact .inr ⟨cm.lower b, by simp [CaseMapping.lower, cm.toLower_newline]⟩
  rwa [← cm.lower_append, ← hs] at hlower

theorem lower_filter (cm : CaseMapping) (s : List Char) :
    cm.lower (s.filter (· != '*')) = (cm.lower s).filter (· != '*') := by
  have hstar (c : Char) : (cm.toLower c != '*') = (c != '*') := by
    rw [Bool.eq_iff_iff, bne_iff_ne, bne_iff_ne, not_iff_not]
    constructor
    · exact cm.eq_of_toLower_eq (by decide) (by decide)
    · rintro rfl
      exact cm.toLower_eq_self (by decide) (by decide)
  rw [CaseMapping.lower, CaseMapping.lower, List.filter_map]
  congr 1
  apply List.filter_congr
  intro c _
  exact (hstar c).symm

/-- A port that a list accepts, where it is not changed by lower-casing. -/
theorem PortList.exists_accepts (cm : CaseMapping) {ports : PortList} (h : ports.IsValid) :
    ∃ port, ports.Accepts port ∧ cm.lower port = port ∧ '\n' ∉ port := by
  cases ports with
  | none => exact ⟨[], rfl, rfl, by simp⟩
  | all => exact ⟨[], .inl rfl, rfl, by simp⟩
  | these p ps =>
      have hp (c : Char) (hc : c ∈ ':' :: p) : c.toNat < 65 ∧ c ≠ '\n' := by
        rcases List.mem_cons.mp hc with rfl | hc
        · decide
        · have hdigit := (h p (by simp)).2 c hc
          refine ⟨isPortChar_low (by simp [isPortChar, hdigit]), ?_⟩
          rintro rfl
          exact absurd hdigit (by decide)
      refine ⟨':' :: p, ⟨p, by simp, rfl⟩, ?_, fun hmem => (hp _ hmem).2 rfl⟩
      rw [CaseMapping.lower, List.map_congr_left fun c hc =>
        cm.toLower_eq_self (by have := (hp c hc).1; omega) (.inl (hp c hc).1), List.map_id']

theorem newOriginPatternFromString_of_none (cm : CaseMapping) (d : Declared)
    (hports : d.ports = .none) :
    ∃ op, newOriginPatternFromString cm d.text = some op ∧
      op.pattern = patternRegex (cm.lower d.pre) d.ports := by
  have hlower : cm.lower d.text = cm.lower d.pre := by simp [Declared.text, hports, PortList.text]
  have hcompile := @compile_pattern (cm.lower d.pre) (cm.notMem_lower _) d.ports d.isValid
  rw [newOriginPatternFromString, d.trimSlash_text, hlower,
    cutPorts_of_not_infix (cm.not_infix_lower d.no_ports)]
  rw [hports] at hcompile ⊢
  change ∃ op, (compile ('^' :: (quoteValue (cm.lower d.pre) ++ portsValue PortList.none.inner
    ++ ['$']))).map _ = some op ∧ _
  rw [hcompile]
  exact ⟨_, rfl, rfl⟩

theorem newOriginPatternFromString_of_ports (cm : CaseMapping) (d : Declared)
    (hports : d.ports ≠ .none) :
    ∃ op, newOriginPatternFromString cm d.text = some op ∧
      op.pattern = patternRegex (lastLine (cm.lower d.pre)) d.ports := by
  have hlower : cm.lower d.text = cm.lower d.pre ++ d.ports.text := by
    rw [Declared.text, cm.lower_append, PortList.lower_text cm d.isValid]
  obtain ⟨a, hpre, ha, hline⟩ := exists_append_lastLine (cm.lower d.pre)
  have hquote : 'E' ∉ lastLine (cm.lower d.pre) := by
    intro hmem
    exact cm.notMem_lower d.pre (by rw [hpre]; simp [hmem])
  have hcut : cutPorts (cm.lower d.pre ++ d.ports.text) = (lastLine (cm.lower d.pre), d.ports.inner) := by
    have := cutPorts_append d.isValid hports ha hline (hpre ▸ cm.not_infix_lower d.no_ports)
    rwa [← hpre] at this
  rw [newOriginPatternFromString, d.trimSlash_text, hlower, hcut]
  change ∃ op, (compile ('^' :: (quoteValue _ ++ portsValue d.ports.inner ++ ['$']))).map _ =
    some op ∧ _
  rw [compile_pattern hquote d.isValid]
  exact ⟨_, rfl, rfl⟩

/-- A text that fills a pattern has all of the pattern's characters. -/
theorem Fills.mem {p s : List Char} (h : Fills p s) {c : Char} (hc : c ∈ p) (hstar : c ≠ '*') :
    c ∈ s := by
  induction h with
  | nil => exact absurd hc (by simp)
  | char _ _ ih =>
      rcases List.mem_cons.mp hc with rfl | hc
      · simp
      · exact List.mem_cons_of_mem _ (ih hc)
  | star x _ ih =>
      rcases List.mem_cons.mp hc with rfl | hc
      · exact absurd rfl hstar
      · exact List.mem_append_right _ (ih hc)

theorem Fills.filter (p : List Char) : Fills p (p.filter (· != '*')) := by
  induction p with
  | nil => exact .nil
  | cons c p ih =>
      by_cases hc : c = '*'
      · subst hc
        simpa using Fills.star [] ih
      · rw [List.filter_cons_of_pos (by simpa using hc)]
        exact .char hc ih

/-- A pattern that stands for itself: the compiled pattern matches the origins it means. -/
def Declared.Faithful (cm : CaseMapping) (d : Declared) : Prop :=
  ∃ op, newOriginPatternFromString cm d.text = some op ∧ ∀ origin, '\n' ∉ origin →
    (matchString op.pattern (cm.lower origin) = true ↔ d.Means cm origin)

/-- A pattern means what it says unless a port list follows a line break. -/
theorem declared_faithful_iff (cm : CaseMapping) (d : Declared) :
    d.Faithful cm ↔ d.ports = .none ∨ '\n' ∉ d.pre := by
  constructor
  · rintro ⟨op, hop, hmatch⟩
    by_contra hcon
    push Not at hcon
    obtain ⟨hports, hbreak⟩ := hcon
    obtain ⟨op', hop', hpattern⟩ := newOriginPatternFromString_of_ports cm d hports
    obtain rfl : op' = op := Option.some.inj (hop'.symm.trans hop)
    -- The last line without its stars is matched, whatever stands before it.
    obtain ⟨port, hport, hlower, hportline⟩ := PortList.exists_accepts cm d.isValid
    obtain ⟨-, -, -, hline⟩ := exists_append_lastLine d.pre
    have horigin : '\n' ∉ (lastLine d.pre).filter (· != '*') ++ port := by
      rw [List.mem_append, not_or]
      exact ⟨fun hmem => hline (List.mem_of_mem_filter hmem), hportline⟩
    have hlower' : cm.lower ((lastLine d.pre).filter (· != '*') ++ port) =
        (lastLine (cm.lower d.pre)).filter (· != '*') ++ port := by
      rw [cm.lower_append, lower_filter, lower_lastLine, hlower]
    have hyes : d.Means cm ((lastLine d.pre).filter (· != '*') ++ port) := by
      rw [← hmatch _ horigin, hpattern, matchString_patternRegex (by rwa [cm.newline_mem_lower])]
      exact ⟨_, port, hlower', Fills.filter _, hport⟩
    obtain ⟨host, port', heq, hfills, -⟩ := hyes
    have hmem : '\n' ∈ host := hfills.mem (cm.newline_mem_lower.mpr hbreak) (by decide)
    exact horigin (cm.newline_mem_lower.mp (heq ▸ List.mem_append_left _ hmem))
  · intro h
    have hop : ∃ op, newOriginPatternFromString cm d.text = some op ∧
        op.pattern = patternRegex (cm.lower d.pre) d.ports := by
      by_cases hports : d.ports = .none
      · exact newOriginPatternFromString_of_none cm d hports
      · have hline := h.resolve_left hports
        have hself : lastLine (cm.lower d.pre) = cm.lower d.pre :=
          @lastLine_append [] (cm.lower d.pre) (.inl rfl) (by rwa [cm.newline_mem_lower])
        have := newOriginPatternFromString_of_ports cm d hports
        rwa [hself] at this
    obtain ⟨op, hop, hpattern⟩ := hop
    refine ⟨op, hop, fun origin horigin => ?_⟩
    rw [hpattern, matchString_patternRegex (by rwa [cm.newline_mem_lower])]
    rfl

/-- Two lines in front of a port: an origin of the second line alone is matched. -/
theorem declared_line_break : ¬ (Declared.mk "https://a\n.com".toList (.these "80".toList [])
    (by decide) (by decide) (by simp [PortList.IsValid, IsDigits, isDigit])).Faithful
      asciiCaseMapping := by
  rintro ⟨op, hop, hmatch⟩
  have hmatched := (hmatch ".com:80".toList (by decide)).mp (by
    obtain rfl := Option.some.inj (hop.symm.trans rfl)
    decide)
  obtain ⟨host, port, heq, hfills, -⟩ := hmatched
  have hmem : '\n' ∈ host := hfills.mem (by decide) (by decide)
  have hbreak : '\n' ∈ asciiCaseMapping.lower ".com:80".toList := by
    rw [heq]
    exact List.mem_append_left _ hmem
  exact absurd hbreak (by decide)

end Higress.Cors
